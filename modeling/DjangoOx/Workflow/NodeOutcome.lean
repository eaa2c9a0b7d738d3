import DjangoOx.Workflow.Answerable
import DjangoOx.Task.Reconnect

/-! `_write_node_outcome` under `_write_outcome_reconnecting`: one node's outcome through every try
of its transaction, while everybody else goes on moving the workflow. -/
namespace DjangoOx

open Machine Machine.Fencing

/-- `OUTCOME_ATTEMPTS` -/
def outcomeAttempts : ℕ := 5

/-- `_put_back`: the columns an outcome sets, as the instance had them in `saved`. -/
def OxTask.putBack (inst saved : OxTask) (o : Outcome) : OxTask :=
  { inst with
    status := saved.status
    returnValue := if o.returnValue = none then inst.returnValue else saved.returnValue
    errors := saved.errors
    finishedAt := if o.finishedAt = none then inst.finishedAt else saved.finishedAt
    runAfter := if o.runAfter = none then inst.runAfter else saved.runAfter
    leaseEpoch := if o.leaseEpoch = none then inst.leaseEpoch else saved.leaseEpoch
    lockedBy := saved.lockedBy
    lockedAt := saved.lockedAt
    leaseExpiresAt := saved.leaseExpiresAt }

theorem OxTask.putBack_self (t : OxTask) (o : Outcome) : t.putBack t o = t := by
  simp [OxTask.putBack]

theorem OxTask.putBack_setOutcome (t : OxTask) (o : Outcome) :
    (t.setOutcome o).putBack t o = t := by
  obtain ⟨st, value, errors, finished, after, epoch⟩ := o
  cases value <;> cases finished <;> cases after <;> cases epoch <;>
    simp [OxTask.putBack, OxTask.setOutcome, OxTask.unlocked]

instance : DecidablePred Record.Own := fun r =>
  match h : r.ending with
  | .returned _ | .raised _ _ => isTrue (by simp [Record.Own, h])
  | .stuck exc => isFalse fun ho => ho exc h

/-- The epoch the write leaves on the row, computed from the instance. -/
def Record.epochOn (r : Record) (inst : OxTask) : ℕ :=
  r.outcome.leaseEpoch.getD inst.leaseEpoch

/-- What an error that leaves the tries is to the call. -/
inductive CallEnd
  /-- A database error of a connection that still answers: `workflow_outcome_unrecorded`. -/
  | unrecorded
  /-- `_outcome_connection_gone`. `refused` says that the call held and opened no connection;
  `earned` is the number of delays the second try has, `none` when it has no second try. -/
  | gone (refused : Bool) (earned : Option ℕ)
  /-- Not a database error. -/
  | other
  deriving DecidableEq, Repr

/-- How one try of the transaction ends. -/
inductive NodeTry
  | answers
  /-- An error before the commit, or a commit that did not happen. `mirrored` says that the row
  write had gone onto the instance, `again` that the error is a lost lock conflict and the lease
  allows another try. -/
  | raises (mirrored again : Bool) (ending : CallEnd)
  /-- An error at a commit that happened, or behind it. -/
  | lands (ending : CallEnd)
  deriving DecidableEq, Repr

inductive NodePhase
  /-- After so many failed tries of a call; `later` is `none` in the first call, and in a later
  one the delays left. -/
  | tries (later : Option ℕ) (failed : ℕ)
  /-- About to ask whether the row has the outcome, with this many delays left. -/
  | checking (delays : ℕ)
  | returned (landed : Bool)
  | raised
  deriving DecidableEq, Repr

structure NodeWriter where
  shared : WorkflowState
  /-- The row instance of the execution. -/
  inst : OxTask
  /-- What the call saved of the instance. -/
  saved : OxTask
  /-- The record's epoch, as the call computed it. -/
  epoch : ℕ
  phase : NodePhase
  /-- The state before and after each commit of the tries, latest first. -/
  commits : List (WorkflowState × WorkflowState)

inductive NodeWriterAction
  /-- Another party's step. -/
  | other (a : WorkflowAction)
  | attempt (e : NodeTry)
  /-- `_outcome_already_written`, and what it raised, if it did. -/
  | check (e : Option TryError)

/-- The step of one party that an action makes on the row of `t`. -/
def WorkflowAction.rowStep (t : TaskId) : WorkflowAction → Option RowAction
  | .claim u b | .row u b => if u = t then some b else none
  | .outcome u b held now ending => if u = t then some (.writeOutcome b held now ending) else none
  | _ => none

/-- Whether a step is somebody else's: any step but a record of this execution's own thread. -/
def Record.Foreign (r : Record) (t : TaskId) (a : WorkflowAction) : Prop :=
  ∀ b ∈ a.rowStep t, r.Own → WriterState.Foreign r b

instance (r : Record) (t : TaskId) : DecidablePred (r.Foreign t) := fun a =>
  inferInstanceAs (Decidable (∀ b ∈ a.rowStep t, r.Own → WriterState.Foreign r b))

namespace WorkflowState

/-- The transaction of one try: the fenced row write, then the record and the marks. -/
def writeNode (s : WorkflowState) (r : Record) (t : TaskId) (inst : OxTask) (epoch : ℕ) :
    Option WorkflowState :=
  (s.rows t).bind fun x =>
    (x.row.writeOutcome inst r.outcome).map fun row =>
      (s.putRow t (x.commit (r.ending.event inst.leaseEpoch) row)).recordNodeOutcome t
        r.outcome.status epoch

/-- `_outcome_already_written` -/
def AlreadyWritten (s : WorkflowState) (r : Record) (t : TaskId) (inst : OxTask) : Prop :=
  ∃ x ∈ s.rows t, x.row.OutcomeAlreadyWritten inst r.outcome

instance (s : WorkflowState) (r : Record) (t : TaskId) (inst : OxTask) :
    Decidable (s.AlreadyWritten r t inst) :=
  inferInstanceAs (Decidable (∃ x ∈ s.rows t, x.row.OutcomeAlreadyWritten inst r.outcome))

end WorkflowState

namespace NodeWriter

/-- What follows an error of a later call, or of the check before it. -/
def afterError : ℕ → TryError → NodePhase
  | n + 1, .refused => .checking n
  | 0, .refused => .returned false
  | _, .database => .returned false
  | _, .other => .raised

/-- What follows an error that leaves the tries. The stuck-thread record has no second try. -/
def afterCall (r : Record) (later : Option ℕ) : CallEnd → NodePhase
  | .unrecorded => .returned false
  | .other => .raised
  | .gone refused earned =>
    match later with
    | some n => afterError n (if refused then .refused else .database)
    | none => if r.Own then earned.elim .raised .checking else .raised

variable {r : Record} {t : TaskId} {s s' : NodeWriter}

/-- A call begins: it saves the instance and computes the epoch. -/
def call (s : NodeWriter) (r : Record) (later : Option ℕ) : NodeWriter :=
  { s with saved := s.inst, epoch := r.epochOn s.inst, phase := .tries later 0 }

/-- The instance as `_write_outcome` leaves it once its row write has landed. -/
def mirror (s : NodeWriter) (r : Record) : OxTask := s.inst.setOutcome r.outcome

/-- The transaction of the current try, which waits until nobody else holds the row. -/
def write (s : NodeWriter) (r : Record) (t : TaskId) : Option WorkflowState :=
  if s.shared.holder t = none then s.shared.writeNode r t s.inst s.epoch else none

def commit (s : NodeWriter) (u : WorkflowState) : NodeWriter :=
  { s with shared := u, commits := (s.shared, u) :: s.commits }

def attempt (s : NodeWriter) (r : Record) (t : TaskId) (later : Option ℕ) (failed : ℕ) :
    NodeTry → Option NodeWriter
  | .answers =>
    match s.write r t with
    | some u => some { s.commit u with inst := s.mirror r, phase := .returned true }
    | none => if s.shared.holder t = none then some { s with phase := .returned false } else none
  | .raises mirrored again ending =>
    if mirrored = true → (s.write r t).isSome then
      some { s with
        inst := (if mirrored then s.mirror r else s.inst).putBack s.saved r.outcome
        phase := if again ∧ failed + 1 < outcomeAttempts then .tries later (failed + 1)
          else afterCall r later ending }
    else none
  | .lands ending =>
    (s.write r t).map fun u =>
      { s.commit u with
        inst := (s.mirror r).putBack s.saved r.outcome
        phase := afterCall r later ending }

def step (r : Record) (t : TaskId) (s : NodeWriter) : NodeWriterAction → Option NodeWriter
  | .other a =>
    if r.Foreign t a then (s.shared.step a).map fun u => { s with shared := u } else none
  | .attempt e =>
    match s.phase with
    | .tries later failed => s.attempt r t later failed e
    | _ => none
  | .check none =>
    match s.phase with
    | .checking n =>
      if s.shared.AlreadyWritten r t s.inst then
        some { s with inst := s.mirror r, phase := .returned true }
      else some (s.call r (some n))
    | _ => none
  | .check (some err) =>
    match s.phase with
    | .checking n => some { s with phase := afterError n err }
    | _ => none

/-- The first call begins: the execution holds its claim and its own thread has recorded
nothing. -/
def Start (r : Record) (t : TaskId) (s : NodeWriter) : Prop :=
  workflowSystem.Reachable s.shared ∧ t ∈ s.shared.used ∧
    (∀ x, s.shared.rows t = some x → r.held ∈ x.held ∧
      (r.Own → Event.answered r.held.leaseEpoch ∉ x.log)) ∧
    s.inst = r.held ∧ s.saved = r.held ∧ s.epoch = r.epochOn r.held ∧ s.phase = .tries none 0 ∧
    s.commits = []

end NodeWriter

def nodeWriterSystem (r : Record) (t : TaskId) : System NodeWriter NodeWriterAction where
  init := NodeWriter.Start r t
  step := NodeWriter.step r t

/-- The row's outcome, its node's record at the epoch the row is left at, and the marks on the
edges out of a success; nothing else. -/
structure OutcomeCommitted (r : Record) (t : TaskId) (s s' : WorkflowState) : Prop where
  row : ∃ x x', s.rows t = some x ∧ x.row.leaseEpoch = r.held.leaseEpoch ∧ x.row.status.Writable ∧
    x'.row = x.row.setOutcome r.outcome ∧ x'.row.leaseEpoch = r.epochOn r.held ∧
    s'.rows = Function.update s.rows t (some x')
  record : s'.nodes = s.nodes.map fun n =>
    if n.task = t then
      { n with outcome := some r.outcome.status, outcomeEpoch := some (r.epochOn r.held),
               succeeded := r.outcome.status = .successful }
    else n
  marks : s'.edges =
    if r.outcome.status = .successful ∧ (s.nodeOf t).isSome then
      s.edges.map fun e => if e.upstream = t then { e with satisfied := true } else e
    else s.edges
  rest : s' = { s with rows := s'.rows, nodes := s'.nodes, edges := s'.edges,
                       succeeded := s'.succeeded }

namespace WorkflowState

variable {r : Record} {t : TaskId} {s u : WorkflowState}

/-- What the transaction finds and leaves on the row. -/
theorem writeNode_eq_some {inst : OxTask} {epoch : ℕ} (h : s.writeNode r t inst epoch = some u) :
    ∃ x, s.rows t = some x ∧ x.row.leaseEpoch = inst.leaseEpoch ∧ x.row.status.Writable ∧
      u = (s.putRow t (x.commit (r.ending.event inst.leaseEpoch)
        (x.row.setOutcome r.outcome))).recordNodeOutcome t r.outcome.status epoch := by
  obtain ⟨x, hx, h⟩ := Option.bind_eq_some_iff.mp h
  obtain ⟨row, hrow, rfl⟩ := Option.map_eq_some_iff.mp h
  obtain ⟨⟨he, hw⟩, rfl⟩ := OxTask.writeOutcome_eq_some.mp hrow
  exact ⟨x, hx, he, hw, rfl⟩

/-- With the instance of the claim, the transaction is one outcome step of the workflow. -/
theorem writeNode_step (hset : r.outcome.status = .successful ∨ r.outcome.status = .failed)
    (hfree : s.holder t = none) (hheld : ∀ x, s.rows t = some x → r.held ∈ x.held)
    (h : s.writeNode r t r.held (r.epochOn r.held) = some u) :
    s.step (.outcome t r.backoff r.held r.now r.ending) = some u := by
  obtain ⟨x, hx, he, hw, rfl⟩ := writeNode_eq_some h
  have hrow : x.step (.writeOutcome r.backoff r.held r.now r.ending) =
      some (x.commit (r.ending.event r.held.leaseEpoch) (x.row.setOutcome r.outcome)) := by
    have hmap : x.row.writeOutcome r.held r.outcome = some (x.row.setOutcome r.outcome) :=
      OxTask.writeOutcome_eq_some.mpr ⟨⟨he, hw⟩, rfl⟩
    simp only [RowState.step, if_pos (hheld x hx)]
    change (x.row.writeOutcome r.held r.outcome).map _ = _
    rw [hmap]
    rfl
  have hepoch : (x.row.setOutcome r.outcome).leaseEpoch = r.epochOn r.held := by
    unfold Record.epochOn
    rw [← he]
    rfl
  have hstatus : (x.commit (r.ending.event r.held.leaseEpoch)
      (x.row.setOutcome r.outcome)).row.status = r.outcome.status := rfl
  simp only [step, if_pos hfree, hx, Option.bind_some, hrow, Option.map_some, hstatus, if_pos hset]
  congr 2

/-- The record of a row that may still be answered takes every outcome. -/
theorem Answerable.takes (ha : s.Answerable) (hr : s.RecordInv) {x : RowState} {st : Status}
    {e : ℕ} {n : OxpullWorkflowNode} (hx : s.rows t = some x) (hw : x.row.status.Writable)
    (he : x.row.leaseEpoch ≤ e) (hst : st ≠ .lost) (hn : n ∈ s.nodes) (ht : n.task = t) :
    recordTakes n.outcome n.outcomeEpoch st e := by
  have hrow : s.row n.task = some (x.row.status, x.row.leaseEpoch) := by simp [row, ht, hx]
  unfold recordTakes
  cases hnode : n.outcomeEpoch with
  | none => trivial
  | some e' =>
    have hle : e' ≤ x.row.leaseEpoch := hr.epochs n hn e' hnode _ _ hrow
    rcases (hle.trans he).lt_or_eq with hlt | heq
    · exact .inl hlt
    · have hsame : e' = x.row.leaseEpoch := le_antisymm hle (heq ▸ he)
      have hrec : n.outcome = none ∨ n.outcome = some .lost :=
        LastInv.answerable ha n hn _ _ hrow hw (hsame ▸ hnode)
      exact .inr ⟨heq, hrec.imp_right fun h => ⟨h, hst⟩⟩

theorem nodes_recordNodeOutcome (s : WorkflowState) (t : TaskId) (st : Status) (e : ℕ) :
    (s.recordNodeOutcome t st e).nodes =
      s.nodes.map fun n => if n.task = t then n.record st e else n := by
  unfold recordNodeOutcome
  by_cases hfound : (s.nodeOf t).isSome
  · by_cases hwon : st = .successful <;> simp [hfound, hwon, recordNode, markOut]
  · have hnone : ∀ n ∈ s.nodes, ¬ n.task = t := by simpa [nodeOf] using hfound
    have hsame : ∀ n ∈ s.nodes, (if n.task = t then n.record st e else n) = n :=
      fun n hn => if_neg (hnone n hn)
    rw [if_neg hfound, List.map_congr_left hsame, List.map_id']

theorem edges_recordNodeOutcome (s : WorkflowState) (t : TaskId) (st : Status) (e : ℕ) :
    (s.recordNodeOutcome t st e).edges =
      if st = .successful ∧ (s.nodeOf t).isSome then
        s.edges.map fun e => if e.upstream = t then { e with satisfied := true } else e
      else s.edges := by
  unfold recordNodeOutcome
  by_cases hfound : (s.nodeOf t).isSome <;> by_cases hwon : st = .successful <;>
    simp [hfound, hwon, recordNode, markOut]

theorem writeNode_committed (hset : r.outcome.status = .successful ∨ r.outcome.status = .failed)
    (hs : workflowSystem.Reachable s) (h : s.writeNode r t r.held (r.epochOn r.held) = some u) :
    OutcomeCommitted r t s u := by
  obtain ⟨x, hx, he, hw, rfl⟩ := writeNode_eq_some h
  have hrec := (reachable_record hs).2
  have hans := (reachable_rows hs).1
  have hle : x.row.leaseEpoch ≤ r.epochOn r.held := by
    unfold Record.epochOn
    rcases outcomeOf_leaseEpoch r.backoff r.held r.now r.ending with hk | hk
    · change r.outcome.leaseEpoch = none at hk
      simp [hk, he]
    · change r.outcome.leaseEpoch = some _ at hk
      simp [hk, he]
  have hlost : r.outcome.status ≠ .lost := by
    rcases hset with h | h <;> simp [h]
  have hput : ∀ n ∈ s.nodes, (if n.task = t then n.record r.outcome.status (r.epochOn r.held)
      else n) = if n.task = t then
        { n with outcome := some r.outcome.status, outcomeEpoch := some (r.epochOn r.held),
                 succeeded := r.outcome.status = .successful }
        else n := by
    intro n hn
    by_cases ht : n.task = t
    · rw [if_pos ht, if_pos ht]
      unfold OxpullWorkflowNode.record
      rw [if_pos (hans.takes hrec hx hw hle hlost hn ht)]
    · rw [if_neg ht, if_neg ht]
  set s₁ := s.putRow t (x.commit (r.ending.event r.held.leaseEpoch) (x.row.setOutcome r.outcome))
    with hs₁
  have hrows := rows_recordNodeOutcome s₁ t r.outcome.status (r.epochOn r.held)
  refine ⟨⟨x, _, hx, he, hw, rfl, ?_, hrows⟩, ?_, ?_, ?_⟩
  · unfold Record.epochOn
    rw [← he]
    rfl
  · rw [nodes_recordNodeOutcome]
    exact List.map_congr_left hput
  · rw [edges_recordNodeOutcome]
    rfl
  · obtain ⟨nodes, edges, hframe⟩ :=
      recordNodeOutcome_frame s₁ t r.outcome.status (r.epochOn r.held)
    rw [hframe]
    rfl

end WorkflowState

namespace WorkflowAction

variable {r : Record} {t : TaskId} {a : WorkflowAction} {b : RowAction}

/-- What somebody else moves a row by is somebody else's step on it. -/
theorem Moves.foreign (hm : a.Moves t b) (hf : r.Foreign t a) (ho : r.Own) :
    WriterState.Foreign r b := by
  cases a with
  | claim u c | row u c =>
    obtain ⟨rfl, rfl⟩ := hm
    exact hf _ (by simp [rowStep]) ho
  | outcome u backoff held now ending =>
    obtain ⟨rfl, rfl⟩ := hm
    exact hf _ (by simp [rowStep]) ho
  | releaseMany x now =>
    obtain ⟨e, rfl⟩ := hm
    trivial
  | cancelMany x now =>
    obtain ⟨e, rfl⟩ := hm
    trivial
  | _ => exact hm.elim

end WorkflowAction

namespace WorkflowState

/-- No step forgets that an id was used. -/
theorem used_step {s s' : WorkflowState} {t : TaskId} {a : WorkflowAction}
    (h : s.step a = some s') (ht : t ∈ s.used) : t ∈ s'.used := by
  cases a with
  | claim u c | row u c =>
    obtain ⟨-, h⟩ := Option.ite_none_right_eq_some.mp h
    obtain ⟨x, -, rfl⟩ := Option.map_eq_some_iff.mp h
    exact ht
  | outcome u b held now ending =>
    obtain ⟨-, h⟩ := Option.ite_none_right_eq_some.mp h
    obtain ⟨x, -, rfl⟩ := Option.map_eq_some_iff.mp h
    split_ifs
    · obtain ⟨nodes, edges, hframe⟩ :=
        recordNodeOutcome_frame (s.putRow u x) u x.row.status x.row.leaseEpoch
      rw [hframe]
      exact ht
    · exact ht
  | commitAdd x task call inherited now =>
    simp only [step] at h
    split at h
    · split at h
      · obtain ⟨-, h⟩ := Option.ite_none_right_eq_some.mp h
        obtain rfl := Option.some.inj h
        exact List.mem_cons_of_mem _ ht
      · cases h
    · cases h
  | releaseMany x now =>
    simp only [step] at h
    split at h
    · next pairs _ =>
      obtain ⟨-, h⟩ := Option.ite_none_right_eq_some.mp h
      obtain rfl := Option.some.inj h
      obtain ⟨rows, succeeded, hframe⟩ := updateMany_frame s pairs fun e => .release e now
      rw [hframe]
      exact ht
    · cases h
  | cancelMany x now =>
    simp only [step] at h
    split at h
    · next w doomed pairs _ =>
      obtain ⟨-, h⟩ := Option.ite_none_right_eq_some.mp h
      obtain rfl := Option.some.inj h
      obtain ⟨rows, succeeded, hframe⟩ := updateMany_frame s pairs fun e => .cancelMany e now
      have hused : (s.updateMany pairs fun e => .cancelMany e now).used = s.used := by rw [hframe]
      change t ∈ (if _ then _ else _ : WorkflowState).used
      split_ifs
      · exact hused ▸ ht
      · obtain ⟨nodes, hsame⟩ :=
          recordDiscarded_frame (s.updateMany pairs fun e => .cancelMany e now) pairs
        rw [hsame]
        exact hused ▸ ht
    · cases h
  | _ =>
    simp only [step] at h
    repeat' split at h
    all_goals cases h
    all_goals exact ht

end WorkflowState

/-- The stuck-thread record moves the epoch on by one. -/
theorem Record.epochOn_of_not_own {r : Record} (ho : ¬ r.Own) :
    r.epochOn r.held = r.held.leaseEpoch + 1 := by
  unfold Record.Own at ho
  push Not at ho
  obtain ⟨exc, hend⟩ := ho
  unfold Record.epochOn Record.outcome
  rw [hend]
  simp only [outcomeOf, handleFailure]
  split <;> rfl

namespace NodeWriter

variable {r : Record} {t : TaskId} {s s' : NodeWriter} {u : WorkflowState}

/-- What the steps of everybody keep of the node's row, with the commits made so far. -/
def RowKept (r : Record) (commits : List (WorkflowState × WorkflowState)) (x : RowState) : Prop :=
  r.held ∈ x.held ∧ (commits ≠ [] → Spent r.held.leaseEpoch x.row.fence) ∧
    (r.Own → Event.answered r.held.leaseEpoch ∈ x.log → commits ≠ [])

/-- What a run keeps of the workflow and of its commits. -/
structure Kept (r : Record) (t : TaskId) (s : WorkflowState)
    (commits : List (WorkflowState × WorkflowState)) : Prop where
  reachable : workflowSystem.Reachable s
  used : t ∈ s.used
  row : ∀ x, s.rows t = some x → RowKept r commits x
  once : commits.length ≤ 1
  committed : ∀ c ∈ commits, OutcomeCommitted r t c.1 c.2

/-- Every try starts on the claim's instance, and True is said of a commit alone. -/
def Phased (r : Record) (s : NodeWriter) : NodePhase → Prop
  | .tries later failed =>
    s.inst = r.held ∧ s.saved = r.held ∧ s.epoch = r.epochOn r.held ∧ failed < outcomeAttempts ∧
      (later ≠ none → r.Own)
  | .checking _ => s.inst = r.held ∧ r.Own
  | .returned landed => landed = true → s.commits ≠ []
  | .raised => True

/-- What a run keeps. -/
structure Inv (r : Record) (t : TaskId) (s : NodeWriter) : Prop where
  kept : Kept r t s.shared s.commits
  phased : s.Phased r s.phase

theorem inv_of_start (h : s.Start r t) : s.Inv r t := by
  obtain ⟨hs, hu, hrow, hinst, hsaved, hepoch, hphase, hnone⟩ := h
  refine ⟨⟨hs, hu, ?_, by simp [hnone], by simp [hnone]⟩, ?_⟩
  · intro x hx
    obtain ⟨hheld, hlog⟩ := hrow x hx
    exact ⟨hheld, fun h => absurd hnone h, fun ho hl => absurd hl (hlog ho)⟩
  · rw [hphase]
    exact ⟨hinst, hsaved, hepoch, by decide, fun h => absurd rfl h⟩

/-- Somebody else's step keeps what is known of the node's row. -/
theorem RowKept.step {commits : List (WorkflowState × WorkflowState)} {x x' : RowState}
    {b : RowAction} (hf : r.Own → WriterState.Foreign r b) (hi : RowKept r commits x)
    (h : x.step b = some x') : RowKept r commits x' := by
  obtain ⟨hheld, hspent, hlog⟩ := hi
  refine ⟨RowState.step_held h hheld, fun hc => RowState.step_spent h (hspent hc), ?_⟩
  intro ho he
  rcases RowState.step_answered h he with he | ⟨c, held, now, ending, rfl, he⟩
  · exact hlog ho he
  · cases ending with
    | stuck exc => cases he
    | returned value => exact absurd (Event.answered.inj he) (hf ho)
    | raised exc answer => exact absurd (Event.answered.inj he) (hf ho)

theorem Kept.foreign {commits : List (WorkflowState × WorkflowState)} {w w' : WorkflowState}
    {a : WorkflowAction} (hi : Kept r t w commits) (hf : r.Foreign t a)
    (h : w.step a = some w') : Kept r t w' commits := by
  have hrow : ∀ x, w'.rows t = some x → RowKept r commits x := by
    apply WorkflowState.step_row_induction (.inl hi.used) h ?_ hi.row
    intro x b x' hm hx hb
    exact hx.step (fun ho => hm.foreign hf ho) hb
  exact ⟨hi.reachable.step h, WorkflowState.used_step h hi.used, hrow, hi.once, hi.committed⟩

/-- A transaction that commits is the first, and leaves the row to no later one. -/
theorem Kept.commit {commits : List (WorkflowState × WorkflowState)} {w : WorkflowState}
    (hset : r.outcome.status = .successful ∨ r.outcome.status = .failed)
    (hi : Kept r t w commits) (hfree : w.holder t = none)
    (h : w.writeNode r t r.held (r.epochOn r.held) = some u) :
    Kept r t u ((w, u) :: commits) := by
  have hstep : w.step (.outcome t r.backoff r.held r.now r.ending) = some u :=
    WorkflowState.writeNode_step hset hfree (fun x hx => (hi.row x hx).1) h
  have hreach : workflowSystem.Reachable u :=
    hi.reachable.step (a := .outcome t r.backoff r.held r.now r.ending) hstep
  have hcommitted := WorkflowState.writeNode_committed hset hi.reachable h
  obtain ⟨x, hx, he, hw, hu⟩ := WorkflowState.writeNode_eq_some h
  obtain ⟨hheld, hspent, -⟩ := hi.row x hx
  have hempty : commits = [] := by
    by_contra hne
    have hlive : x.row.fence.live = true := OxTask.fence_live.mpr hw
    have hsp : Spent x.row.leaseEpoch x.row.fence := he ▸ hspent hne
    exact not_spent_of_live hlive hsp
  have hrows : u.rows = Function.update w.rows t
      (some (x.commit (r.ending.event r.held.leaseEpoch) (x.row.setOutcome r.outcome))) := by
    rw [hu, WorkflowState.rows_recordNodeOutcome]
    rfl
  refine ⟨hreach, WorkflowState.used_step hstep hi.used, ?_, by simp [hempty], ?_⟩
  · intro y hy
    rw [hrows, Function.update_self] at hy
    obtain rfl := Option.some.inj hy
    refine ⟨hheld, fun _ => ?_, fun _ _ => by simp⟩
    change Spent r.held.leaseEpoch (x.row.setOutcome r.outcome).fence
    rw [← he]
    exact (OxTask.setOutcome_allows r.backoff r.now r.ending he).shut_spent
  · intro c hc
    rw [hempty, List.mem_singleton] at hc
    rw [hc]
    exact hcommitted

variable {later : Option ℕ} {failed : ℕ}

theorem write_eq_some (h : s.write r t = some u) :
    s.shared.holder t = none ∧ s.shared.writeNode r t s.inst s.epoch = some u :=
  Option.ite_none_right_eq_some.mp h

theorem phased_afterError {n : ℕ} {err : TryError} (ho : r.Own) (hinst : s.inst = r.held) :
    s.Phased r (afterError n err) := by
  cases n <;> cases err <;> simp [afterError, Phased, ho, hinst]

theorem phased_afterCall {e : CallEnd} (hlater : later ≠ none → r.Own)
    (hinst : s.inst = r.held) : s.Phased r (afterCall r later e) := by
  cases e with
  | unrecorded => simp [afterCall, Phased]
  | other => simp [afterCall, Phased]
  | gone refused earned =>
    cases later with
    | some n => exact phased_afterError (hlater (by simp)) hinst
    | none =>
      unfold afterCall
      dsimp only
      split_ifs with ho
      · cases earned with
        | none => trivial
        | some n => exact ⟨hinst, ho⟩
      · trivial

/-- The instance a failed try puts back is the claim's again. -/
theorem putBack_mirror (hinst : s.inst = r.held) (hsaved : s.saved = r.held) (mirrored : Bool) :
    (if mirrored then s.mirror r else s.inst).putBack s.saved r.outcome = r.held := by
  unfold mirror
  rw [hinst, hsaved]
  cases mirrored with
  | false => exact r.held.putBack_self r.outcome
  | true => exact r.held.putBack_setOutcome r.outcome

theorem attempt_inv {e : NodeTry}
    (hset : r.outcome.status = .successful ∨ r.outcome.status = .failed) (hi : s.Inv r t)
    (hp : s.phase = .tries later failed) (h : s.attempt r t later failed e = some s') :
    s'.Inv r t := by
  obtain ⟨hk, hphase⟩ := hi
  rw [hp] at hphase
  obtain ⟨hinst, hsaved, hepoch, hfailed, hlater⟩ := hphase
  have hcommit : ∀ u, s.write r t = some u → Kept r t u ((s.shared, u) :: s.commits) := by
    intro u hu
    obtain ⟨hfree, hw⟩ := write_eq_some hu
    rw [hinst, hepoch] at hw
    exact hk.commit hset hfree hw
  cases e with
  | answers =>
    simp only [attempt] at h
    split at h
    · next u hu =>
      obtain rfl := Option.some.inj h
      exact ⟨hcommit u hu, fun _ => by simp [NodeWriter.commit]⟩
    · obtain ⟨-, h⟩ := Option.ite_none_right_eq_some.mp h
      obtain rfl := Option.some.inj h
      exact ⟨hk, fun h => by cases h⟩
  | raises mirrored again ending =>
    obtain ⟨-, h⟩ := Option.ite_none_right_eq_some.mp h
    obtain rfl := Option.some.inj h
    refine ⟨hk, ?_⟩
    have hback := putBack_mirror hinst hsaved mirrored
    by_cases hagain : again = true ∧ failed + 1 < outcomeAttempts
    · rw [if_pos hagain]
      exact ⟨hback, hsaved, hepoch, hagain.2, hlater⟩
    · rw [if_neg hagain]
      exact phased_afterCall hlater hback
  | lands ending =>
    obtain ⟨u, hu, rfl⟩ := Option.map_eq_some_iff.mp h
    exact ⟨hcommit u hu, phased_afterCall hlater (putBack_mirror hinst hsaved true)⟩

theorem step_inv {a : NodeWriterAction}
    (hset : r.outcome.status = .successful ∨ r.outcome.status = .failed) (hi : s.Inv r t)
    (h : s.step r t a = some s') : s'.Inv r t := by
  cases a with
  | other b =>
    obtain ⟨hf, h⟩ := Option.ite_none_right_eq_some.mp h
    obtain ⟨u, hu, rfl⟩ := Option.map_eq_some_iff.mp h
    refine ⟨hi.kept.foreign hf hu, ?_⟩
    have hphase := hi.phased
    cases hp : s.phase <;> simp only [Phased, hp] at hphase ⊢ <;> exact hphase
  | attempt e =>
    simp only [step] at h
    split at h
    · next later failed hp => exact attempt_inv hset hi hp h
    · cases h
  | check e =>
    cases e with
    | none =>
      simp only [step] at h
      split at h
      · next n hp =>
        have hphase := hi.phased
        rw [hp] at hphase
        obtain ⟨hinst, ho⟩ := hphase
        split_ifs at h with hw
        · obtain rfl := Option.some.inj h
          obtain ⟨x, hx, hwritten⟩ := hw
          rw [hinst] at hwritten
          have hrow := (WorkflowState.reachable_rows hi.kept.reachable).2 t x hx
          obtain ⟨hheld, -, hlog⟩ := hi.kept.row x hx
          exact ⟨hi.kept, fun _ => hlog ho (hrow.answered_of_already_written ho hheld hwritten)⟩
        · obtain rfl := Option.some.inj h
          exact ⟨hi.kept, hinst, hinst, congrArg r.epochOn hinst, by decide, fun _ => ho⟩
      · cases h
    | some err =>
      simp only [step] at h
      split at h
      · next n hp =>
        obtain rfl := Option.some.inj h
        have hphase := hi.phased
        rw [hp] at hphase
        exact ⟨hi.kept, phased_afterError hphase.2 hphase.1⟩
      · cases h

theorem reachable_inv (hset : r.outcome.status = .successful ∨ r.outcome.status = .failed)
    (h : (nodeWriterSystem r t).Reachable s) : s.Inv r t :=
  h.invariant (Inv r t) (fun _ hs => inv_of_start hs) fun _ _ _ hi hs => step_inv hset hi hs

/-- A step of the call leaves the workflow alone or commits once. -/
theorem step_own {a : NodeWriterAction} (ha : ∀ b, a ≠ .other b) (h : s.step r t a = some s') :
    s'.shared = s.shared ∧ s'.commits = s.commits ∨
      s'.commits = (s.shared, s'.shared) :: s.commits := by
  cases a with
  | other b => exact absurd rfl (ha b)
  | attempt e =>
    simp only [step] at h
    split at h
    · cases e with
      | answers =>
        simp only [attempt] at h
        split at h
        · obtain rfl := Option.some.inj h
          exact .inr rfl
        · obtain ⟨-, h⟩ := Option.ite_none_right_eq_some.mp h
          obtain rfl := Option.some.inj h
          exact .inl ⟨rfl, rfl⟩
      | raises mirrored again ending =>
        obtain ⟨-, h⟩ := Option.ite_none_right_eq_some.mp h
        obtain rfl := Option.some.inj h
        exact .inl ⟨rfl, rfl⟩
      | lands ending =>
        obtain ⟨u, -, rfl⟩ := Option.map_eq_some_iff.mp h
        exact .inr rfl
    · cases h
  | check e =>
    cases e with
    | none =>
      simp only [step] at h
      split at h
      · split_ifs at h
        · obtain rfl := Option.some.inj h
          exact .inl ⟨rfl, rfl⟩
        · obtain rfl := Option.some.inj h
          exact .inl ⟨rfl, rfl⟩
      · cases h
    | some err =>
      simp only [step] at h
      split at h
      · obtain rfl := Option.some.inj h
        exact .inl ⟨rfl, rfl⟩
      · cases h

end NodeWriter

/-- The step of another party, when it is one. -/
def NodeWriterAction.others : NodeWriterAction → Option WorkflowAction
  | .other a => some a
  | _ => none

namespace NodeWriter

variable {r : Record} {t : TaskId} {s s' : NodeWriter} {as : List NodeWriterAction}

/-- Commits are only added, and while none is the workflow moves by the others' steps alone. -/
theorem run_others (h : (nodeWriterSystem r t).run s as = some s') :
    ∃ made, s'.commits = made ++ s.commits ∧
      (made = [] → workflowSystem.run s.shared (as.filterMap NodeWriterAction.others) =
        some s'.shared) := by
  induction as generalizing s with
  | nil =>
    obtain rfl := Option.some.inj h
    exact ⟨[], rfl, fun _ => rfl⟩
  | cons a as ih =>
    obtain ⟨u, hu, h⟩ := Option.bind_eq_some_iff.mp h
    obtain ⟨made, hmade, hrest⟩ := ih h
    have hown : (∀ b, a ≠ .other b) → ∃ made, s'.commits = made ++ s.commits ∧
        (made = [] → workflowSystem.run s.shared (as.filterMap NodeWriterAction.others) =
          some s'.shared) := by
      intro ha
      have hstep : s.step r t a = some u := hu
      rcases step_own ha hstep with ⟨hshared, hcommits⟩ | hcommits
      · refine ⟨made, hcommits ▸ hmade, fun hnone => ?_⟩
        rw [← hshared]
        exact hrest hnone
      · refine ⟨made ++ [(s.shared, u.shared)], ?_, by simp⟩
        rw [hmade, hcommits, List.append_assoc]
        rfl
    cases a with
    | other b =>
      obtain ⟨-, hu⟩ := Option.ite_none_right_eq_some.mp hu
      obtain ⟨w, hw, rfl⟩ := Option.map_eq_some_iff.mp hu
      refine ⟨made, hmade, fun hnone => ?_⟩
      exact (System.run_cons (M := workflowSystem) hw).trans (hrest hnone)
    | attempt e => exact hown (by simp)
    | check e => exact hown (by simp)

end NodeWriter

/-- Over any run of the tries of a node's outcome, among any steps of the others: the row's outcome,
the node's record at the epoch the row is left at and the marks commit in one step, and that at most
once; every try starts from the claim's instance; the call says True of a commit alone; and a call
that commits nothing leaves the workflow to the others. -/
theorem node_outcome_atomic {r : Record} {t : TaskId}
    (hset : r.outcome.status = .successful ∨ r.outcome.status = .failed) {s₀ s : NodeWriter}
    {as : List NodeWriterAction} (h₀ : s₀.Start r t)
    (h : (nodeWriterSystem r t).run s₀ as = some s) :
    s.commits.length ≤ 1 ∧
      (∀ c ∈ s.commits, OutcomeCommitted r t c.1 c.2) ∧
      (∀ later failed, s.phase = .tries later failed →
        s.inst = r.held ∧ s.epoch = r.epochOn r.held) ∧
      (¬ r.Own → r.epochOn r.held = r.held.leaseEpoch + 1) ∧
      (s.phase = .returned true → s.commits.length = 1) ∧
      (∀ a s', (nodeWriterSystem r t).step s a = some s' → (∀ b, a ≠ .other b) →
        s'.shared = s.shared ∧ s'.commits = s.commits ∨
          s'.commits = (s.shared, s'.shared) :: s.commits) ∧
      (s.commits = [] → workflowSystem.run s₀.shared (as.filterMap NodeWriterAction.others) =
        some s.shared) := by
  have hi : s.Inv r t := NodeWriter.reachable_inv hset (.of_run h₀ h)
  have hphase := hi.phased
  refine ⟨hi.kept.once, hi.kept.committed, ?_, Record.epochOn_of_not_own, ?_,
    fun a s' hs ha => NodeWriter.step_own ha hs, ?_⟩
  · intro later failed hp
    rw [hp] at hphase
    exact ⟨hphase.1, hphase.2.2.1⟩
  · intro hp
    rw [hp] at hphase
    have hne : s.commits ≠ [] := hphase rfl
    have hpos : 0 < s.commits.length := List.length_pos_iff.mpr hne
    have hle := hi.kept.once
    omega
  · intro hnone
    obtain ⟨made, hmade, hrun⟩ := NodeWriter.run_others h
    rw [hnone] at hmade
    exact hrun (List.append_eq_nil_iff.mp hmade.symm).1

/-- The success of the one attempt of a node with a node behind it. -/
def nodeRecord : Record := ⟨⟨1, 1⟩, heldAttempt [] 1 1, 6, .returned none⟩

/-- Two nodes, the first of them claimed. -/
def claimedNode : List WorkflowAction :=
  [.create 0, .startAdd 0 0 "a" [], .commitAdd 0 1 oneAttempt 1 0, .startAdd 0 0 "b" ["a"],
    .readSucceeded 0 100, .commitAdd 0 2 oneAttempt 1 0, .clear 1,
    .claim 1 (.claimPostgresql (soloWorker "w1") 5 5)]

def NodeWriter.begun (r : Record) (s : WorkflowState) : NodeWriter :=
  ⟨s, r.held, r.held, r.epochOn r.held, .tries none 0, []⟩

/-- A try that loses a lock conflict, one whose commit is not heard of, and the check that finds it
on the row. -/
def lostReply : List NodeWriterAction :=
  [.attempt (.raises true true .unrecorded), .attempt (.lands (.gone false (some 0))), .check none]

theorem node_outcome_atomic_after_lost_reply :
    ∃ s₀ s, workflowSystem.run noWorkflow claimedNode = some s₀ ∧
      (nodeWriterSystem nodeRecord 1).run (NodeWriter.begun nodeRecord s₀) lostReply = some s ∧
      s.phase = .returned true ∧ s.commits.length = 1 ∧
      ∀ c ∈ s.commits, OutcomeCommitted nodeRecord 1 c.1 c.2 := by
  have hclaimed : ∃ s₀, workflowSystem.run noWorkflow claimedNode = some s₀ ∧ 1 ∈ s₀.used ∧
      (∀ x, s₀.rows 1 = some x → nodeRecord.held ∈ x.held ∧ x.log = [.claimed 1]) ∧
      ((nodeWriterSystem nodeRecord 1).run (NodeWriter.begun nodeRecord s₀) lostReply).map
        NodeWriter.phase = some (.returned true) := by
    refine ⟨_, rfl, by decide, fun x hx => ?_, by decide +kernel⟩
    obtain rfl := Option.some.inj hx
    exact ⟨by decide, rfl⟩
  obtain ⟨s₀, hs₀, hused, hrow, hphase⟩ := hclaimed
  obtain ⟨s, hs, hp⟩ := Option.map_eq_some_iff.mp hphase
  have hstart : (NodeWriter.begun nodeRecord s₀).Start nodeRecord 1 := by
    refine ⟨.of_run noWorkflow_start hs₀, hused, fun x hx => ?_, rfl, rfl, rfl, rfl, rfl⟩
    obtain ⟨hheld, hlog⟩ := hrow x hx
    exact ⟨hheld, fun _ => by simp [hlog]⟩
  have hall := node_outcome_atomic (.inl rfl) hstart hs
  exact ⟨s₀, s, hs₀, hs, hp, hall.2.2.2.2.1 hp, hall.2.1⟩

end DjangoOx
