import DjangoOx.Workflow.Rows

/-! Workflows under every party that writes their rows: callers that add nodes, workers, operators,
the reconciler's passes and the two prunes. A step is a committed write, or a read that a later
write acts on. -/
namespace DjangoOx

open Machine

/-- What a party carries from its reads to its write. -/
inductive WorkflowPass
  | idle
  /-- `_add_once`, its names resolved; `unread` upstreams are not yet looked at. -/
  | adding (workflow : ℕ) (name : String) (upstream unread succeeded : List TaskId)
  /-- Unmarked edges as (key, upstream, downstream), and what `_succeeded_or_recorded` has of their
  upstreams. -/
  | proving (edges : List (ℕ × TaskId × TaskId)) (unread gone proven : List TaskId)
  /-- `_repair_records_once`: (node key, task, row status, row epoch). -/
  | repairing (records : List (ℕ × TaskId × Status × ℕ))
  /-- `_repair_node_records`: the nodes still to be looked up, and the records wanted. -/
  | looking (nodes : List (ℕ × TaskId × Option Status × Option ℕ))
      (records : List (ℕ × TaskId × Status × ℕ))
  | releasing (chunk : List TaskId)
  | freed (free : List TaskId)
  | paired (pairs : List (TaskId × ℕ))
  /-- `_cancel_one_level`: the upstreams found with a row that are not yet locked, those found
  gone, and the doomed. -/
  | cancelling (workflow : ℕ) (found gone doomed : List TaskId)
  | doomed (workflow : ℕ) (doomed : List TaskId)
  | coned (workflow : ℕ) (doomed cone : List TaskId)
  | cancelPairs (workflow : ℕ) (doomed : List TaskId) (pairs : List (TaskId × ℕ))
  /-- `retire_workflow`, past its classification. -/
  | retiring (workflow after : ℕ)
  | chunked (workflow : ℕ) (chunk : List (ℕ × TaskId × Option Status))
  deriving Repr

structure WorkflowState where
  workflows : ℕ → Option OxpullWorkflow
  rows : TaskId → Option RowState
  nodes : List OxpullWorkflowNode
  edges : List OxpullWorkflowEdge
  /-- The party that holds a task row's lock between its steps. -/
  holder : TaskId → Option ℕ
  /-- The same of a workflow row. -/
  owner : ℕ → Option ℕ
  passes : ℕ → WorkflowPass
  /-- The tasks that some claim's read let through. -/
  cleared : List TaskId
  /-- The task ids that were given out. -/
  used : List TaskId
  nextNode : ℕ
  nextEdge : ℕ
  /-- The upstreams each committed node was added with. -/
  declared : TaskId → Option (List TaskId)
  /-- The tasks whose row was SUCCESSFUL in some committed state. -/
  succeeded : List TaskId

inductive WorkflowAction
  | create (workflow : ℕ)
  | sealOnce (workflow : ℕ)
  | complete (workflow : ℕ)
  | stamp (workflow : ℕ)
  | startAdd (party workflow : ℕ) (name : String) (wanted : List String)
  | readSucceeded (party size : ℕ)
  | commitAdd (party : ℕ) (task : TaskId) (call : Call) (inherited : ℕ) (now : ℤ)
  /-- A claim's read lets the task through. -/
  | clear (task : TaskId)
  | claim (task : TaskId) (a : RowAction)
  | outcome (task : TaskId) (b : Backoff) (held : OxTask) (now : ℤ) (ending : AttemptEnd)
  /-- Any other write of a row: the lease, the reaper, the operator, and the outcome of a worker
  that records no nodes. -/
  | row (task : TaskId) (a : RowAction)
  | pruneTask (task : TaskId)
  | readEdgesInto (party : ℕ) (tasks : List TaskId)
  | readEdgePage (party workflow after upTo limit : ℕ)
  | proveRows (party size : ℕ)
  | proveRecords (party size : ℕ)
  | markProven (party : ℕ) (locked : List ℕ)
  | readRepairs (party workflow : ℕ)
  | commitRepairs (party : ℕ)
  | readNodes (party : ℕ) (tasks : List TaskId)
  | readNodePage (party workflow after upTo limit : ℕ)
  | readNodeRows (party size : ℕ)
  | writeRecords (party : ℕ) (locked : List ℕ)
  | startRelease (party : ℕ) (chunk : List TaskId)
  | readHeld (party : ℕ)
  | readWaiting (party : ℕ)
  | releaseMany (party : ℕ) (now : ℤ)
  | readCancellable (party workflow : ℕ)
  | lockDoomed (party : ℕ)
  | readGone (party : ℕ)
  | readCone (party : ℕ)
  | readPairs (party : ℕ)
  | cancelMany (party : ℕ) (now : ℤ)
  | classifyRetirable (party workflow : ℕ)
  | readChunk (party size : ℕ)
  | retireChunk (party : ℕ)
  /-- Any error; the transaction, if there is one, rolls back. -/
  | abort (party : ℕ)

/-- The claims of `RowAction`. -/
def RowAction.IsClaim : RowAction → Bool
  | .claimPostgresql _ _ _ | .claimSkipLocked _ _ _ | .claimOptimistic _ _ _ _ => true
  | _ => false

/-- The writes of a row that belong to no step of a workflow. -/
def RowAction.IsPlain : RowAction → Bool
  | .claimPostgresql _ _ _ | .claimSkipLocked _ _ _ | .claimOptimistic _ _ _ _ | .release _ _
  | .cancelMany _ _ | .reviveMany _ => false
  | _ => true

namespace WorkflowState

/-- The status and the epoch of a task row. -/
def row (s : WorkflowState) (t : TaskId) : Option (Status × ℕ) :=
  (s.rows t).map fun r => (r.row.status, r.row.leaseEpoch)

def status (s : WorkflowState) (t : TaskId) : Option Status :=
  (s.rows t).map (·.row.status)

/-- The row as a step leaves it. -/
def putRow (s : WorkflowState) (t : TaskId) (r : RowState) : WorkflowState :=
  { s with
    rows := Function.update s.rows t (some r)
    succeeded := if r.row.status = .successful then t :: s.succeeded else s.succeeded }

def setPass (s : WorkflowState) (x : ℕ) (p : WorkflowPass) : WorkflowState :=
  { s with passes := Function.update s.passes x p }

/-- The transaction of a party ends. -/
def unlock (s : WorkflowState) (x : ℕ) : WorkflowState :=
  { s with
    holder := fun t => if s.holder t = some x then none else s.holder t
    owner := fun w => if s.owner w = some x then none else s.owner w }

/-- Nobody else holds the row's lock. -/
def Free (s : WorkflowState) (x : ℕ) (t : TaskId) : Prop :=
  s.holder t = none ∨ s.holder t = some x

instance (s : WorkflowState) (x : ℕ) (t : TaskId) : Decidable (s.Free x t) :=
  inferInstanceAs (Decidable (_ ∨ _))

/-- The node of a task. -/
def nodeOf (s : WorkflowState) (t : TaskId) : Option OxpullWorkflowNode :=
  s.nodes.find? (·.task = t)

/-- `_blocking_edges` -/
def blockingEdges (s : WorkflowState) (t : TaskId) : List OxpullWorkflowEdge :=
  s.edges.filter fun e =>
    e.downstream = t ∧ e.satisfied = false ∧ s.status e.upstream ≠ some .successful

/-- What the record of a task's node holds. -/
def recorded (s : WorkflowState) (t : TaskId) : Option Status :=
  (s.nodeOf t).bind (·.outcome)

/-- The task settled without succeeding: by its row, or by its record once the row is gone. -/
def Dead (s : WorkflowState) (t : TaskId) : Prop :=
  (∃ st ∈ s.status t, st.Dead) ∨ s.status t = none ∧ ∃ st ∈ s.recorded t, st.Dead

instance (s : WorkflowState) (t : TaskId) : Decidable (s.Dead t) :=
  inferInstanceAs (Decidable ((∃ st ∈ s.status t, st.Dead) ∨ _ ∧ ∃ st ∈ s.recorded t, st.Dead))

/-- READY or WAITING. -/
def Cancellable (s : WorkflowState) (t : TaskId) : Prop :=
  ∃ st ∈ s.status t, st.Cancellable

instance (s : WorkflowState) (t : TaskId) : Decidable (s.Cancellable t) :=
  inferInstanceAs (Decidable (∃ st ∈ s.status t, st.Cancellable))

/-- `_cancellable_edges` -/
def cancellableEdges (s : WorkflowState) (w : ℕ) : List OxpullWorkflowEdge :=
  s.edges.filter fun e =>
    e.workflow = w ∧ e.satisfied = false ∧ s.Dead e.upstream ∧ s.Cancellable e.downstream

/-- The task of the node with that name. -/
def resolve (s : WorkflowState) (w : ℕ) (name : String) : Option TaskId :=
  (s.nodes.find? fun n => n.workflow = w ∧ n.name = name).map (·.task)

/-- `_resolve_dependencies`: `none` is UnknownWorkflowNode. Names given twice count once. -/
def resolveDependencies (s : WorkflowState) (w : ℕ) (wanted : List String) :
    Option (List TaskId) :=
  wanted.dedup.mapM (s.resolve w)

/-- The row `add` commits: READY with no dependencies or with all of them succeeded. -/
def addedRow (call : Call) (inherited : ℕ) (now : ℤ) (upstream succeeded : List TaskId) : OxTask :=
  if upstream = [] then DjangoOx.row call inherited now
  else
    let t := waitingRow call inherited now
    if upstream ⊆ succeeded then (t.release t.leaseEpoch now).getD t else t

/-- The edges `add` inserts. -/
def addedEdges (first w : ℕ) (task : TaskId) (upstream succeeded : List TaskId) :
    List OxpullWorkflowEdge :=
  upstream.mapIdx fun i u => ⟨first + i, w, u, task, decide (u ∈ succeeded)⟩

/-- What `add` commits: the row, the node, its edges and the workflow's count. -/
def insertNode (s : WorkflowState) (w : ℕ) (f : OxpullWorkflow) (name : String) (task : TaskId)
    (t : OxTask) (upstream succeeded : List TaskId) : WorkflowState :=
  { s.putRow task ⟨t, [], [], [], []⟩ with
    workflows := Function.update s.workflows w (some { f with nodeCount := f.nodeCount + 1 })
    nodes := s.nodes ++ [⟨s.nextNode, w, name, task, none, none, false⟩]
    edges := s.edges ++ addedEdges s.nextEdge w task upstream succeeded
    used := task :: s.used
    nextNode := s.nextNode + 1
    nextEdge := s.nextEdge + upstream.length
    declared := Function.update s.declared task (some upstream) }

/-- The row of one task after an UPDATE of it by key, its status and its epoch. -/
def update (s : WorkflowState) (t : TaskId) (a : RowAction) : WorkflowState :=
  match (s.rows t).bind (·.step a) with
  | some r => s.putRow t r
  | none => s

/-- `release_many` and `cancel_many`: each pair's row, if it is still as it was read. -/
def updateMany (s : WorkflowState) (pairs : List (TaskId × ℕ)) (a : ℕ → RowAction) :
    WorkflowState :=
  pairs.foldl (fun s p => s.update p.1 (a p.2)) s

/-- The record of a task's node. -/
def recordNode (s : WorkflowState) (t : TaskId) (st : Status) (e : ℕ) : WorkflowState :=
  { s with nodes := s.nodes.map fun n => if n.task = t then n.record st e else n }

/-- The edges out of the tasks are marked. -/
def markOut (s : WorkflowState) (tasks : List TaskId) : WorkflowState :=
  { s with edges := s.edges.map fun e =>
      if e.upstream ∈ tasks then { e with satisfied := true } else e }

/-- `record_node_outcome` -/
def recordNodeOutcome (s : WorkflowState) (t : TaskId) (st : Status) (e : ℕ) : WorkflowState :=
  if (s.nodeOf t).isSome then
    let s := s.recordNode t st e
    if st = .successful then s.markOut [t] else s
  else s

/-- The records of a cancelled level, as the rows stand. -/
def recordDiscarded (s : WorkflowState) (pairs : List (TaskId × ℕ)) : WorkflowState :=
  pairs.foldl (fun a p =>
    match s.row p.1 with
    | some (st, e) => if st = .discarded then a.recordNode p.1 .discarded e else a
    | none => a) s

/-- What a record repair wants of a node it read: its settled row, if the record takes it. -/
def wantedRecord (s : WorkflowState) (n : ℕ × TaskId × Option Status × Option ℕ) :
    Option (ℕ × TaskId × Status × ℕ) :=
  match s.row n.2.1 with
  | some (st, e) =>
    if st.Settled ∧ recordTakes n.2.2.1 n.2.2.2 st e then some (n.1, n.2.1, st, e) else none
  | none => none

/-- A node as a record repair reads it. -/
def nodeFields (n : OxpullWorkflowNode) : ℕ × TaskId × Option Status × Option ℕ :=
  (n.pk, n.task, n.outcome, n.outcomeEpoch)

/-- A record as `_record_many` takes it: the node's key, the status and the epoch. -/
def recordFields (r : ℕ × TaskId × Status × ℕ) : ℕ × Status × ℕ := (r.1, r.2.2)

def edgeFields (e : OxpullWorkflowEdge) : ℕ × TaskId × TaskId := (e.pk, e.upstream, e.downstream)

/-- The nodes of a chunk that `_retire_chunk` deletes: recorded, their rows SUCCESSFUL, DISCARDED or
gone. -/
def going (s : WorkflowState) (chunk : List (ℕ × TaskId × Option Status)) :
    List (ℕ × TaskId × Option Status) :=
  chunk.filter fun c =>
    (∀ st ∈ s.status c.2.1, st.Retirable) ∧ ∃ n ∈ s.nodes, n.pk = c.1 ∧ n.outcome ≠ none

/-- Of those, the ones that count as succeeded. -/
def goingSucceeded (s : WorkflowState) (chunk : List (ℕ × TaskId × Option Status)) : List TaskId :=
  ((s.going chunk).filter fun c =>
    match s.status c.2.1 with
    | some st => st = .successful
    | none => c.2.2 = some .successful).map (·.2.1)

/-- `_retire_chunk`, past its locks. -/
def retire (s : WorkflowState) (w : ℕ) (chunk : List (ℕ × TaskId × Option Status)) :
    WorkflowState :=
  let going := s.going chunk
  let succeeded := s.goingSucceeded chunk
  { s with
    nodes := s.nodes.filter fun n => ¬ (n.pk ∈ going.map (·.1) ∧ n.outcome ≠ none)
    edges := (s.edges.filter fun e => ¬ (e.workflow = w ∧ e.downstream ∈ going.map (·.2.1))).map
      fun e =>
        if e.workflow = w ∧ e.upstream ∈ succeeded then { e with satisfied := true } else e }

section updates

variable (s : WorkflowState) (x : ℕ) (p : WorkflowPass) (t u : TaskId) (r : RowState)

theorem passes_setPass (y : ℕ) :
    (s.setPass x p).passes y = if y = x then p else s.passes y := by
  simp [setPass, Function.update_apply]

theorem rows_putRow : (s.putRow t r).rows u = if u = t then some r else s.rows u := by
  simp [putRow, Function.update_apply]

theorem status_putRow :
    (s.putRow t r).status u = if u = t then some r.row.status else s.status u := by
  unfold status
  rw [rows_putRow]
  split_ifs <;> rfl

theorem row_putRow :
    (s.putRow t r).row u = if u = t then some (r.row.status, r.row.leaseEpoch) else s.row u := by
  unfold row
  rw [rows_putRow]
  split_ifs <;> rfl

theorem mem_succeeded_putRow :
    u ∈ (s.putRow t r).succeeded ↔ u ∈ s.succeeded ∨ u = t ∧ r.row.status = .successful := by
  unfold putRow
  by_cases h : r.row.status = .successful <;> simp [h, or_comm]

/-- A write of one row by key finds it or changes nothing. -/
theorem update_cases (a : RowAction) :
    s.update t a = s ∨
      ∃ r r', s.rows t = some r ∧ r.step a = some r' ∧ s.update t a = s.putRow t r' := by
  unfold update
  cases h : (s.rows t).bind (·.step a) with
  | none => exact .inl rfl
  | some r' =>
    obtain ⟨r, hr, hs⟩ := Option.bind_eq_some_iff.mp h
    exact .inr ⟨r, r', hr, hs, rfl⟩

/-- What one write keeps, a bulk write keeps. -/
theorem updateMany_induction {P : WorkflowState → Prop} {pairs : List (TaskId × ℕ)}
    {a : ℕ → RowAction} (hs : P s)
    (hstep : ∀ s', P s' → ∀ q ∈ pairs, P (s'.update q.1 (a q.2))) :
    P (s.updateMany pairs a) := by
  unfold updateMany
  induction pairs generalizing s with
  | nil => exact hs
  | cons q pairs ih =>
    rw [List.foldl_cons]
    exact ih _ (hstep s hs q List.mem_cons_self)
      fun s' h q' hq => hstep s' h q' (List.mem_cons_of_mem _ hq)

/-- A bulk write writes rows, and nothing else. -/
theorem updateMany_frame (pairs : List (TaskId × ℕ)) (a : ℕ → RowAction) :
    ∃ rows succeeded, s.updateMany pairs a = { s with rows := rows, succeeded := succeeded } := by
  refine updateMany_induction (P := fun s' => ∃ rows succeeded,
    s' = { s with rows := rows, succeeded := succeeded }) s ⟨_, _, rfl⟩ ?_
  rintro s' ⟨rows, succeeded, rfl⟩ q _
  rcases update_cases _ q.1 (a q.2) with h | ⟨r, r', -, -, h⟩
  · exact ⟨rows, succeeded, h⟩
  · exact ⟨_, _, h⟩

/-- What the record of one node keeps, the records of a level keep. -/
theorem recordDiscarded_induction {P : WorkflowState → Prop} {pairs : List (TaskId × ℕ)} (hs : P s)
    (hstep : ∀ s', P s' → ∀ t e, s.row t = some (.discarded, e) →
      P (s'.recordNode t .discarded e)) :
    P (s.recordDiscarded pairs) := by
  unfold recordDiscarded
  suffices h : ∀ s', P s' → P (pairs.foldl (fun a p =>
      match s.row p.1 with
      | some (st, e) => if st = .discarded then a.recordNode p.1 .discarded e else a
      | none => a) s') from h s hs
  induction pairs with
  | nil => exact fun s' h => h
  | cons q pairs ih =>
    intro s' h
    rw [List.foldl_cons]
    apply ih
    split
    · next st e hrow =>
      split_ifs with hst
      · exact hstep s' h _ _ (hst ▸ hrow)
      · exact h
    · exact h

/-- Records and marks are written, and nothing else. -/
theorem recordNodeOutcome_frame (st : Status) (e : ℕ) :
    ∃ nodes edges, s.recordNodeOutcome t st e = { s with nodes := nodes, edges := edges } := by
  unfold recordNodeOutcome
  split_ifs
  · exact ⟨_, _, rfl⟩
  · exact ⟨_, _, rfl⟩
  · exact ⟨_, _, rfl⟩

theorem recordDiscarded_frame (pairs : List (TaskId × ℕ)) :
    ∃ nodes, s.recordDiscarded pairs = { s with nodes := nodes } := by
  refine recordDiscarded_induction (P := fun s' => ∃ nodes, s' = { s with nodes := nodes }) s
    ⟨_, rfl⟩ ?_
  rintro s' ⟨nodes, rfl⟩ t e -
  exact ⟨_, rfl⟩

end updates

def step (s : WorkflowState) : WorkflowAction → Option WorkflowState
  | .create w =>
    if s.workflows w = none then
      some { s with workflows := Function.update s.workflows w (some ⟨.opened, 0, none, false⟩) }
    else none
  | .sealOnce w =>
    match s.workflows w with
    | some f =>
      if f.status = .opened then
        some { s with workflows := Function.update s.workflows w
                        (some { f with status := .sealed, totalCount := some f.nodeCount }) }
      else none
    | none => none
  | .complete w =>
    match s.workflows w with
    | some f =>
      if f.status = .sealed ∧ s.owner w = none then
        some { s with workflows := Function.update s.workflows w
                        (some { f with status := .complete }) }
      else none
    | none => none
  | .stamp w =>
    match s.workflows w with
    | some f =>
      if f.status = .complete then
        some { s with workflows := Function.update s.workflows w (some { f with retired := true }) }
      else none
    | none => none
  | .startAdd x w name wanted =>
    match s.passes x, s.resolveDependencies w wanted with
    | .idle, some upstream => some (s.setPass x (.adding w name upstream upstream []))
    | _, _ => none
  | .readSucceeded x size =>
    match s.passes x with
    | .adding w name upstream unread succeeded =>
      let found := (unread.take size).filter fun u => s.status u = some .successful
      some (s.setPass x (.adding w name upstream (unread.drop size) (succeeded ++ found)))
    | _ => none
  | .commitAdd x task call inherited now =>
    match s.passes x with
    | .adding w name upstream [] succeeded =>
      match s.workflows w with
      | some f =>
        if f.status = .opened ∧ task ∉ s.used ∧ s.resolve w name = none then
          some ((s.insertNode w f name task (addedRow call inherited now upstream succeeded) upstream
            succeeded).setPass x .idle)
        else none
      | none => none
    | _ => none
  | .clear t =>
    if s.blockingEdges t = [] then some { s with cleared := t :: s.cleared } else none
  | .claim t a =>
    if a.IsClaim = true ∧ t ∈ s.cleared ∧ s.holder t = none then
      ((s.rows t).bind (·.step a)).map (s.putRow t)
    else none
  | .outcome t b held now ending =>
    if s.holder t = none then
      ((s.rows t).bind (·.step (.writeOutcome b held now ending))).map fun r =>
        let s := s.putRow t r
        if r.row.status = .successful ∨ r.row.status = .failed then
          s.recordNodeOutcome t r.row.status r.row.leaseEpoch
        else s
    else none
  | .row t a =>
    if a.IsPlain = true ∧ s.holder t = none then
      ((s.rows t).bind (·.step a)).map (s.putRow t)
    else none
  | .pruneTask t =>
    match s.status t with
    | some st =>
      if st.Settled ∧ s.holder t = none then some { s with rows := Function.update s.rows t none }
      else none
    | none => none
  | .readEdgesInto x tasks =>
    match s.passes x with
    | .idle =>
      let edges := (s.edges.filter fun e =>
        e.downstream ∈ tasks ∧ e.satisfied = false).map edgeFields
      some (s.setPass x (.proving edges (edges.map (·.2.1)).dedup [] []))
    | _ => none
  | .readEdgePage x w after upTo limit =>
    match s.passes x with
    | .idle =>
      let edges := ((s.edges.filter fun e =>
        e.workflow = w ∧ e.satisfied = false ∧ after < e.pk ∧ e.pk ≤ upTo).take limit).map
          edgeFields
      some (s.setPass x (.proving edges (edges.map (·.2.1)).dedup [] []))
    | _ => none
  | .proveRows x size =>
    match s.passes x with
    | .proving edges unread gone proven =>
      let chunk := unread.take size
      some (s.setPass x (.proving edges (unread.drop size)
        (gone ++ chunk.filter fun u => s.status u = none)
        (proven ++ chunk.filter fun u => s.status u = some .successful)))
    | _ => none
  | .proveRecords x size =>
    match s.passes x with
    | .proving edges [] gone proven =>
      some (s.setPass x (.proving edges [] (gone.drop size)
        (proven ++ (gone.take size).filter fun u =>
          s.recorded u = some .successful)))
    | _ => none
  | .markProven x locked =>
    match s.passes x with
    | .proving edges [] [] proven =>
      let wanted := (edges.filter fun e => e.2.1 ∈ proven ∧ e.1 ∈ locked).map (·.1)
      some { s.setPass x .idle with edges := markSatisfied s.edges wanted }
    | _ => none
  | .readRepairs x w =>
    match s.passes x with
    | .idle =>
      some (s.setPass x (.repairing ((s.nodes.filter fun n =>
        n.workflow = w ∧ n.kind (s.row n.task) = .repair).filterMap fun n =>
          (s.row n.task).map fun r : Status × ℕ => (n.pk, n.task, r.1, r.2))))
    | _ => none
  | .commitRepairs x =>
    match s.passes x with
    | .repairing records =>
      let won := (records.filter fun r => r.2.2.1 = .successful).map (·.2.1)
      some ({ s.setPass x .idle with
        nodes := recordMany s.nodes (records.map recordFields) }.markOut won)
    | _ => none
  | .readNodes x tasks =>
    match s.passes x with
    | .idle => some (s.setPass x (.looking ((s.nodes.filter (·.task ∈ tasks)).map nodeFields) []))
    | _ => none
  | .readNodePage x w after upTo limit =>
    match s.passes x with
    | .idle =>
      some (s.setPass x (.looking (((s.nodes.filter fun n =>
        n.workflow = w ∧ n.succeeded = false ∧ after < n.pk ∧ n.pk ≤ upTo).take limit).map
          nodeFields) []))
    | _ => none
  | .readNodeRows x size =>
    match s.passes x with
    | .looking nodes records =>
      some (s.setPass x (.looking (nodes.drop size)
        (records ++ (nodes.take size).filterMap s.wantedRecord)))
    | _ => none
  | .writeRecords x locked =>
    match s.passes x with
    | .looking [] records =>
      some { s.setPass x .idle with
        nodes := recordMany s.nodes
          ((records.filter (·.1 ∈ locked)).map recordFields) }
    | _ => none
  | .startRelease x chunk =>
    -- Every caller has read the ids off committed nodes and edges.
    match s.passes x with
    | .idle =>
      if ∀ t ∈ chunk, s.declared t ≠ none then some (s.setPass x (.releasing chunk)) else none
    | _ => none
  | .readHeld x =>
    match s.passes x with
    | .releasing chunk =>
      some (s.setPass x (.freed (chunk.filter fun t =>
        ∀ e ∈ s.edges, e.downstream = t → e.satisfied = true)))
    | _ => none
  | .readWaiting x =>
    match s.passes x with
    | .freed free =>
      some (s.setPass x (.paired (free.filterMap fun t =>
        match s.row t with
        | some (st, e) => if st = .waiting then some (t, e) else none
        | none => none)))
    | _ => none
  | .releaseMany x now =>
    match s.passes x with
    | .paired pairs =>
      if ∀ p ∈ pairs, s.holder p.1 = none then
        some ((s.updateMany pairs fun e => .release e now).setPass x .idle)
      else none
    | _ => none
  | .readCancellable x w =>
    match s.passes x, s.workflows w with
    | .idle, some f =>
      if f.status = .sealed ∧ s.owner w = none then
        let upstream := ((s.cancellableEdges w).map (·.upstream)).dedup
        some { s.setPass x (.cancelling w (upstream.filter fun u => s.status u ≠ none)
                  (upstream.filter fun u => s.status u = none) []) with
                owner := Function.update s.owner w (some x) }
      else none
    | _, _ => none
  | .lockDoomed x =>
    match s.passes x with
    | .cancelling w (u :: found) gone doomed =>
      match s.status u with
      | none => some (s.setPass x (.cancelling w found gone doomed))
      | some st =>
        if s.Free x u then
          some { s.setPass x (.cancelling w found gone
                    (if st.Dead then doomed ++ [u] else doomed)) with
                  holder := Function.update s.holder u (some x) }
        else none
    | _ => none
  | .readGone x =>
    match s.passes x with
    | .cancelling w [] gone doomed =>
      some (s.setPass x (.doomed w (doomed ++ gone.filter fun u =>
        ∃ st ∈ s.recorded u, st.Dead)))
    | _ => none
  | .readCone x =>
    match s.passes x with
    | .doomed w doomed =>
      some (s.setPass x (.coned w doomed ((s.edges.filter fun e =>
        e.workflow = w ∧ e.satisfied = false ∧ e.upstream ∈ doomed).map (·.downstream)).dedup))
    | _ => none
  | .readPairs x =>
    match s.passes x with
    | .coned w doomed cone =>
      some (s.setPass x (.cancelPairs w doomed (cone.filterMap fun t =>
        match s.row t with
        | some (st, e) => if st.Cancellable then some (t, e) else none
        | none => none)))
    | _ => none
  | .cancelMany x now =>
    match s.passes x with
    | .cancelPairs _ _ pairs =>
      if ∀ p ∈ pairs, s.Free x p.1 then
        let s' := s.updateMany pairs fun e => .cancelMany e now
        let moved := pairs.filter fun p =>
          s.status p.1 ≠ some .discarded ∧ s'.status p.1 = some .discarded
        let s'' := if moved = [] then s' else s'.recordDiscarded pairs
        some ((s''.setPass x .idle).unlock x)
      else none
    | _ => none
  | .classifyRetirable x w =>
    match s.passes x, s.workflows w with
    | .idle, some f =>
      if f.status = .complete ∧ f.retired = true ∧
          ∀ n ∈ s.nodes, n.workflow = w → n.kind (s.row n.task) ≠ .pending then
        some (s.setPass x (.retiring w 0))
      else none
    | _, _ => none
  | .readChunk x size =>
    match s.passes x with
    | .retiring w after =>
      some (s.setPass x (.chunked w (((s.nodes.filter fun n =>
        n.workflow = w ∧ n.outcome ≠ none ∧ after < n.pk).take size).map fun n =>
          (n.pk, n.task, n.outcome))))
    | _ => none
  | .retireChunk x =>
    match s.passes x with
    | .chunked w (c :: chunk) =>
      if ∀ c' ∈ c :: chunk, s.holder c'.2.1 = none then
        some ((s.retire w (c :: chunk)).setPass x
          (.retiring w ((c :: chunk).getLast (by simp)).1))
      else none
    | _ => none
  | .abort x => some ((s.setPass x .idle).unlock x)

/-- Nothing yet; the keys count from 1. -/
def Start (s : WorkflowState) : Prop :=
  s.nextNode = 1 ∧ s.nextEdge = 1 ∧
  (∀ w, s.workflows w = none) ∧ (∀ t, s.rows t = none) ∧ s.nodes = [] ∧ s.edges = [] ∧
    (∀ t, s.holder t = none) ∧ (∀ w, s.owner w = none) ∧ (∀ x, s.passes x = .idle) ∧ s.cleared = [] ∧ s.used = [] ∧
    (∀ t, s.declared t = none) ∧ s.succeeded = []

end WorkflowState

def workflowSystem : System WorkflowState WorkflowAction where
  init := WorkflowState.Start
  step := WorkflowState.step

end DjangoOx
