import DjangoOx.Machine.Ledger
import DjangoOx.Machine.Run
import DjangoOx.Workflow.Rows

/-! `Workflow.add` and `Workflow.seal` a statement at a time, in transactions of their own and
inside their callers' transactions, savepoints included. -/
namespace DjangoOx

open Machine

structure AddedNode where
  workflow : ℕ
  name : String
  task : TaskId
  deriving DecidableEq, Repr

structure AddedEdge where
  workflow : ℕ
  upstream : TaskId
  downstream : TaskId
  satisfied : Bool
  deriving DecidableEq, Repr

structure WorkflowTables where
  workflows : ℕ → Option OxpullWorkflow
  tasks : TaskId → Option Status
  nodes : List AddedNode
  edges : List AddedEdge

/-- A row as a statement leaves it. -/
inductive WorkflowWrite
  | workflow (w : ℕ) (f : OxpullWorkflow)
  | task (t : TaskId) (status : Status)
  | node (n : AddedNode)
  | edge (e : AddedEdge)
  deriving DecidableEq, Repr

namespace WorkflowTables

def write (c : WorkflowTables) : WorkflowWrite → WorkflowTables
  | .workflow w f => { c with workflows := Function.update c.workflows w (some f) }
  | .task t status => { c with tasks := Function.update c.tasks t (some status) }
  | .node n => { c with nodes := c.nodes ++ [n] }
  | .edge e => { c with edges := c.edges ++ [e] }

/-- What the workflow's lock stands over: its row, and the nodes that it counts. -/
def counted (c : WorkflowTables) (w : ℕ) : Option OxpullWorkflow × List AddedNode :=
  (c.workflows w, c.nodes.filter (·.workflow = w))

/-- `oxpull_wf_node_name_uniq` and `oxpull_wf_node_task_uniq` -/
def TakesNode (c : WorkflowTables) (n : AddedNode) : Prop :=
  ∀ m ∈ c.nodes, ¬ (m.workflow = n.workflow ∧ m.name = n.name) ∧ m.task ≠ n.task

instance (c : WorkflowTables) (n : AddedNode) : Decidable (c.TakesNode n) :=
  inferInstanceAs (Decidable (∀ m ∈ c.nodes, _ ∧ _))

/-- `oxpull_wf_edge_uniq` -/
def TakesEdges (c : WorkflowTables) (edges : List AddedEdge) : Prop :=
  ((c.edges ++ edges).map fun e => (e.workflow, e.upstream, e.downstream)).Nodup

instance (c : WorkflowTables) (edges : List AddedEdge) : Decidable (c.TakesEdges edges) :=
  inferInstanceAs (Decidable (List.Nodup _))

/-- `_resolve_dependencies`: `none` is UnknownWorkflowNode. -/
def resolve (c : WorkflowTables) (w : ℕ) (wanted : List String) : Option (List TaskId) :=
  wanted.mapM fun name => (c.nodes.find? fun n => n.workflow = w ∧ n.name = name).map (·.task)

/-- `_succeeded_among` -/
def succeededAmong (c : WorkflowTables) (tasks : List TaskId) : List TaskId :=
  tasks.filter fun t => c.tasks t = some .successful

end WorkflowTables

/-- The workflow whose lock the write is made under, when it is to what the lock stands over. -/
def WorkflowWrite.key : WorkflowWrite → Option ℕ
  | .workflow w _ => some w
  | .node n => some n.workflow
  | .task _ _ | .edge _ => none

/-- The arguments of an `add`; the names are `_dependency_names`. -/
structure AddCall where
  workflow : ℕ
  name : String
  wanted : List String
  deriving DecidableEq, Repr

inductive AddStage
  | called
  /-- Inside `transaction.atomic`. -/
  | entered
  | taken
  | enqueued (task : TaskId)
  | resolved (task : TaskId) (upstream : List TaskId)
  | read (task : TaskId) (upstream succeeded : List TaskId)
  /-- Inside the savepoint of the inserts. -/
  | inserting (task : TaskId) (upstream succeeded : List TaskId)
  | noded (task : TaskId) (upstream succeeded : List TaskId)
  | edged (task : TaskId) (upstream succeeded : List TaskId)
  | inserted (task : TaskId) (upstream succeeded : List TaskId)
  | added (task : TaskId)
  /-- An exception is on its way out of the block. -/
  | failing
  deriving DecidableEq, Repr

inductive SealStage
  | called
  | entered
  | done
  | failing
  deriving DecidableEq, Repr

inductive WorkflowCall
  | idle
  | adding (c : AddCall) (attempt : ℕ) (stage : AddStage)
  | sealing (w : ℕ) (attempt : ℕ) (stage : SealStage)
  deriving DecidableEq, Repr

/-- `_lost_conflict` -/
inductive LostConflict
  | deadlock
  | serialization
  deriving DecidableEq, Repr

/-- `MAX_ADD_ATTEMPTS` and `MAX_SERIALIZATION_ATTEMPTS` -/
def LostConflict.bound : LostConflict → ℕ
  | deadlock => 5
  | serialization => 10

/-- A session: `opened` is a transaction of the caller's own, `lost` that the server has rolled it
back under the caller. -/
structure WorkflowCaller where
  opened : Bool
  lost : Bool
  call : WorkflowCall
  /-- What the transaction had written when the call began. -/
  entry : List WorkflowWrite
  deriving DecidableEq, Repr

structure AddState where
  db : Ledger WorkflowTables WorkflowWrite ℕ ℕ
  callers : ℕ → WorkflowCaller
  /-- The task ids that were given out. -/
  issued : List TaskId

inductive AddAction
  /-- The caller's own `atomic` blocks: the outermost, and those inside it. -/
  | begin (x : ℕ)
  | savepoint (x : ℕ)
  | release (x : ℕ)
  | undo (x : ℕ) (keep : Bool)
  | commit (x : ℕ)
  | rollback (x : ℕ)
  | create (x w : ℕ)
  | add (x : ℕ) (c : AddCall)
  | sealOnce (x w : ℕ)
  /-- A check of the arguments raises. -/
  | refuse (x : ℕ)
  | enter (x : ℕ)
  | takeForAdd (x : ℕ)
  | enqueue (x : ℕ) (task : TaskId)
  | resolveDependencies (x : ℕ)
  | readSucceeded (x : ℕ)
  | enterInsert (x : ℕ)
  | insertNode (x : ℕ)
  | insertEdges (x : ℕ)
  | leaveInsert (x : ℕ)
  | releaseAddedNode (x : ℕ)
  | sealRow (x : ℕ)
  /-- A statement of the call raises, or something between two. -/
  | fail (x : ℕ) (keep : Bool)
  | leave (x : ℕ)
  | raise (x : ℕ) (keep : Bool)
  /-- The server rolls the transaction back under the call. -/
  | lose (x : ℕ) (conflict : Option LostConflict)
  /-- A reconciler completes the workflow; `oxpull_prune` stamps it and deletes nodes of it. -/
  | complete (w : ℕ)
  | stamp (w : ℕ)
  | retire (w : ℕ) (tasks : List TaskId)
  /-- Anything else that moves or deletes a task's row. -/
  | move (t : TaskId) (status : Option Status)
  deriving DecidableEq, Repr

namespace WorkflowCall

/-- The workflow whose row counts one node more than there are. -/
def owes : WorkflowCall → Option ℕ
  | .adding c _ .taken | .adding c _ (.enqueued _) | .adding c _ (.resolved ..)
  | .adding c _ (.read ..) | .adding c _ (.inserting ..) => some c.workflow
  | _ => none

/-- The savepoints inside the one the call entered with. -/
def inner : WorkflowCall → ℕ
  | .adding _ _ (.inserting ..) | .adding _ _ (.noded ..) | .adding _ _ (.edged ..) => 1
  | _ => 0

/-- Past `transaction.atomic`. -/
def inside : WorkflowCall → Bool
  | .idle | .adding _ _ .called | .sealing _ _ .called => false
  | _ => true

/-- An exception is on its way. -/
def failing : WorkflowCall → Bool
  | .adding _ _ .failing | .sealing _ _ .failing => true
  | _ => false

/-- The last statement has answered. -/
def finished : WorkflowCall → Bool
  | .adding _ _ (.added _) | .sealing _ _ .done => true
  | _ => false

/-- The call as an exception leaves its statements. -/
def failed : WorkflowCall → WorkflowCall
  | .idle => .idle
  | .adding c attempt _ => .adding c attempt .failing
  | .sealing w attempt _ => .sealing w attempt .failing

/-- The call begun again, when the conflict is one it reissues. -/
def reissued : WorkflowCall → LostConflict → Option WorkflowCall
  | .adding c attempt _, e =>
    if attempt + 1 < e.bound then some (.adding c (attempt + 1) .called) else none
  | .sealing w attempt _, .serialization =>
    if attempt + 1 < LostConflict.serialization.bound then some (.sealing w (attempt + 1) .called)
    else none
  | _, _ => none

end WorkflowCall

namespace AddState

def view (s : AddState) (x : ℕ) : WorkflowTables := s.db.view WorkflowTables.write x

def setCaller (s : AddState) (x : ℕ) (u : WorkflowCaller) : AddState :=
  { s with callers := Function.update s.callers x u }

def setCall (s : AddState) (x : ℕ) (call : WorkflowCall) : AddState :=
  s.setCaller x { s.callers x with call := call }

def setDb (s : AddState) (db : Ledger WorkflowTables WorkflowWrite ℕ ℕ) : AddState :=
  { s with db := db }

/-- A statement of the call of `x` that answered. -/
def went (s : AddState) (x : ℕ) (db : Ledger WorkflowTables WorkflowWrite ℕ ℕ)
    (call : WorkflowCall) : AddState :=
  (s.setDb db).setCall x call

/-- The caller runs its own code, in a transaction of its own that it has not lost. -/
def InBlock (s : AddState) (x : ℕ) : Prop :=
  (s.callers x).call = .idle ∧ (s.callers x).opened = true ∧ (s.callers x).lost = false

instance (s : AddState) (x : ℕ) : Decidable (s.InBlock x) :=
  inferInstanceAs (Decidable (_ ∧ _ ∧ _))

/-- The caller may begin a call. -/
def Ready (s : AddState) (x : ℕ) : Prop :=
  (s.callers x).call = .idle ∧ (s.callers x).lost = false

instance (s : AddState) (x : ℕ) : Decidable (s.Ready x) := inferInstanceAs (Decidable (_ ∧ _))

def begun (s : AddState) (x : ℕ) (call : WorkflowCall) : AddState :=
  s.setCaller x { s.callers x with call := call, entry := s.db.work x }

/-- The edges of a new node. -/
def edgesOf (w : ℕ) (task : TaskId) (upstream succeeded : List TaskId) : List AddedEdge :=
  upstream.map fun u => ⟨w, u, task, decide (u ∈ succeeded)⟩

/-- The caller's own code. -/
def stepCaller (s : AddState) : AddAction → Option AddState
  | .begin x =>
    if s.Ready x ∧ (s.callers x).opened = false then
      some (s.setCaller x { s.callers x with opened := true })
    else none
  | .savepoint x => if s.InBlock x then some (s.setDb (s.db.save x)) else none
  | .release x => if s.InBlock x then some (s.setDb (s.db.forget x)) else none
  | .undo x keep => if s.InBlock x then some (s.setDb (s.db.undo x keep)) else none
  | .commit x =>
    if s.InBlock x then
      some ((s.setDb (s.db.commit WorkflowTables.write x)).setCaller x
        { s.callers x with opened := false })
    else none
  | .rollback x =>
    if (s.callers x).call = .idle ∧ (s.callers x).opened = true then
      some ((s.setDb (s.db.rollback x)).setCaller x
        { s.callers x with opened := false, lost := false })
    else none
  | .create x w =>
    if s.Ready x ∧ s.db.holder w = none ∧ s.db.committed.workflows w = none then
      let new : WorkflowWrite := .workflow w ⟨.opened, 0, none, false⟩
      if (s.callers x).opened then some (s.setDb ((s.db.lock x w).write x new))
      else some (s.setDb (s.db.put (s.db.committed.write new)))
    else none
  | .add x c => if s.Ready x then some (s.begun x (.adding c 0 .called)) else none
  | .sealOnce x w => if s.Ready x then some (s.begun x (.sealing w 0 .called)) else none
  | _ => none

/-- The statements of `_add_once` and `_seal_once`. -/
def stepCall (s : AddState) : AddAction → Option AddState
  | .takeForAdd x =>
    match (s.callers x).call with
    | .adding c i .entered =>
      let w := c.workflow
      if s.db.Free x w then
        match (s.view x).workflows w with
        | some f =>
          let db := s.db.lock x w
          if f.status = .opened then
            some (s.went x (db.write x (.workflow w { f with nodeCount := f.nodeCount + 1 }))
              (.adding c i .taken))
          else some (s.went x db (.adding c i .failing))
        | none => some (s.went x s.db (.adding c i .failing))
      else none
    | _ => none
  | .enqueue x task =>
    match (s.callers x).call with
    | .adding c i .taken =>
      if task ∉ s.issued then
        let status := if c.wanted = [] then Status.ready else Status.waiting
        some { s.went x (s.db.write x (.task task status)) (.adding c i (.enqueued task)) with
          issued := task :: s.issued }
      else none
    | _ => none
  | .resolveDependencies x =>
    match (s.callers x).call with
    | .adding c i (.enqueued task) =>
      match (s.view x).resolve c.workflow c.wanted with
      | some upstream => some (s.setCall x (.adding c i (.resolved task upstream)))
      | none => some (s.setCall x (.adding c i .failing))
    | _ => none
  | .readSucceeded x =>
    match (s.callers x).call with
    | .adding c i (.resolved task upstream) =>
      some (s.setCall x (.adding c i (.read task upstream ((s.view x).succeededAmong upstream))))
    | _ => none
  | .enterInsert x =>
    match (s.callers x).call with
    | .adding c i (.read task upstream succeeded) =>
      some (s.went x (s.db.save x) (.adding c i (.inserting task upstream succeeded)))
    | _ => none
  | .insertNode x =>
    match (s.callers x).call with
    | .adding c i (.inserting task upstream succeeded) =>
      let n : AddedNode := ⟨c.workflow, c.name, task⟩
      -- An IntegrityError is a `fail`.
      if (s.view x).TakesNode n then
        some (s.went x (s.db.write x (.node n)) (.adding c i (.noded task upstream succeeded)))
      else none
    | _ => none
  | .insertEdges x =>
    match (s.callers x).call with
    | .adding c i (.noded task upstream succeeded) =>
      let edges := edgesOf c.workflow task upstream succeeded
      if (s.view x).TakesEdges edges then
        some (s.went x (edges.foldl (fun db e => db.write x (.edge e)) s.db)
          (.adding c i (.edged task upstream succeeded)))
      else none
    | _ => none
  | .leaveInsert x =>
    match (s.callers x).call with
    | .adding c i (.edged task upstream succeeded) =>
      some (s.went x (s.db.forget x) (.adding c i (.inserted task upstream succeeded)))
    | _ => none
  | .releaseAddedNode x =>
    match (s.callers x).call with
    | .adding c i (.inserted task upstream succeeded) =>
      if upstream ≠ [] ∧ upstream ⊆ succeeded then
        some (s.went x (s.db.write x (.task task .ready)) (.adding c i (.added task)))
      else some (s.setCall x (.adding c i (.added task)))
    | _ => none
  | .sealRow x =>
    match (s.callers x).call with
    | .sealing w i .entered =>
      if s.db.Free x w then
        match (s.view x).workflows w with
        | some f =>
          if f.status = .opened then
            let db := (s.db.lock x w).write x
              (.workflow w { f with status := .sealed, totalCount := some f.nodeCount })
            some (s.went x db (.sealing w i .done))
          else some (s.setCall x (.sealing w i .failing))
        | none => some (s.setCall x (.sealing w i .failing))
      else none
    | _ => none
  | _ => none

/-- The blocks around those statements: `transaction.atomic` and `_reissue`. -/
def stepBlock (s : AddState) : AddAction → Option AddState
  | .refuse x =>
    match (s.callers x).call with
    | .adding _ 0 .called | .sealing _ 0 .called => some (s.setCall x .idle)
    | _ => none
  | .enter x =>
    let db := if (s.callers x).opened then s.db.save x else s.db
    match (s.callers x).call with
    | .adding c i .called => some (s.went x db (.adding c i .entered))
    | .sealing w i .called => some (s.went x db (.sealing w i .entered))
    | _ => none
  | .fail x keep =>
    let call := (s.callers x).call
    if call.inside = true ∧ call.failing = false then
      some (s.went x (if call.inner = 1 then s.db.undo x keep else s.db) call.failed)
    else none
  | .leave x =>
    let db := if (s.callers x).opened then s.db.forget x else s.db.commit WorkflowTables.write x
    if (s.callers x).call.finished = true then some (s.went x db .idle) else none
  | .raise x keep =>
    let db := if (s.callers x).opened then s.db.undo x keep else s.db.rollback x
    if (s.callers x).call.failing = true then some (s.went x db .idle) else none
  | .lose x conflict =>
    let call := (s.callers x).call
    if call.inside = true then
      let s := s.setDb (s.db.rollback x)
      if (s.callers x).opened then
        some (s.setCaller x { s.callers x with call := .idle, lost := true })
      else some (s.setCall x ((conflict.bind call.reissued).getD .idle))
    else none
  | _ => none

/-- Everybody else, a transaction at a time. -/
def stepOther (s : AddState) : AddAction → Option AddState
  | .complete w =>
    match s.db.committed.workflows w with
    | some f =>
      if f.status = .sealed ∧ s.db.holder w = none then
        let row : WorkflowWrite := .workflow w { f with status := .complete }
        some (s.setDb (s.db.put (s.db.committed.write row)))
      else none
    | none => none
  | .stamp w =>
    match s.db.committed.workflows w with
    | some f =>
      if f.status = .complete ∧ s.db.holder w = none then
        let row : WorkflowWrite := .workflow w { f with retired := true }
        some (s.setDb (s.db.put (s.db.committed.write row)))
      else none
    | none => none
  | .retire w tasks =>
    match s.db.committed.workflows w with
    | some f =>
      if f.retired = true ∧ s.db.holder w = none then
        some (s.setDb (s.db.put { s.db.committed with
          nodes := s.db.committed.nodes.filter fun n => ¬ (n.workflow = w ∧ n.task ∈ tasks)
          edges := s.db.committed.edges.filter fun e =>
            ¬ (e.workflow = w ∧ e.downstream ∈ tasks) }))
      else none
    | none => none
  | .move t status =>
    if s.db.committed.tasks t ≠ none then
      some (s.setDb (s.db.put { s.db.committed with
        tasks := Function.update s.db.committed.tasks t status }))
    else none
  | _ => none

def step (s : AddState) (a : AddAction) : Option AddState :=
  (s.stepCaller a).or ((s.stepCall a).or ((s.stepBlock a).or (s.stepOther a)))

/-- No row, and nobody in a transaction. -/
def Start (s : AddState) : Prop :=
  s.db = Ledger.idle ⟨fun _ => none, fun _ => none, [], []⟩ ∧
    ∀ x, s.callers x = ⟨false, false, .idle, []⟩

end AddState

def addSystem : System AddState AddAction where
  init := AddState.Start
  step := AddState.step

end DjangoOx
