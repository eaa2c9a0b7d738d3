import DjangoOx.Task.History

/-! The rows of a workflow: the workflow itself, its nodes with their records, and its edges. -/
namespace DjangoOx

inductive WorkflowStatus
  | opened
  | sealed
  | complete
  deriving DecidableEq, Repr

structure OxpullWorkflow where
  status : WorkflowStatus
  nodeCount : ℕ
  /-- NULL until `seal`. -/
  totalCount : Option ℕ
  /-- `metadata_retired_at` is set. -/
  retired : Bool
  deriving DecidableEq, Repr

structure OxpullWorkflowNode where
  pk : ℕ
  workflow : ℕ
  name : String
  task : TaskId
  outcome : Option Status
  outcomeEpoch : Option ℕ
  succeeded : Bool
  deriving DecidableEq, Repr

structure OxpullWorkflowEdge where
  pk : ℕ
  workflow : ℕ
  upstream : TaskId
  downstream : TaskId
  satisfied : Bool
  deriving DecidableEq, Repr

namespace Status

/-- `DEAD_STATUSES` -/
def Dead (s : Status) : Prop := s = failed ∨ s = lost ∨ s = discarded

/-- `SETTLED_STATUSES`, and the statuses a record can hold. -/
def Settled (s : Status) : Prop := s = successful ∨ s.Dead

/-- `RETIRABLE_STATUSES`: no retry moves them. -/
def Retirable (s : Status) : Prop := s = successful ∨ s = discarded

instance : DecidablePred Dead := fun s => inferInstanceAs (Decidable (s = _ ∨ s = _ ∨ s = _))
instance : DecidablePred Settled := fun s => inferInstanceAs (Decidable (s = _ ∨ s.Dead))
instance : DecidablePred Retirable := fun s => inferInstanceAs (Decidable (s = _ ∨ s = _))

end Status

/-- `record_takes`, for a record that is read into memory. -/
def recordTakes (outcome : Option Status) (outcomeEpoch : Option ℕ) (status : Status)
    (epoch : ℕ) : Prop :=
  match outcomeEpoch with
  | none => True
  | some e => e < epoch ∨ e = epoch ∧ (outcome = none ∨ outcome = some .lost ∧ status ≠ .lost)

instance (outcome : Option Status) (outcomeEpoch : Option ℕ) (status : Status) (epoch : ℕ) :
    Decidable (recordTakes outcome outcomeEpoch status epoch) :=
  match outcomeEpoch with
  | none => inferInstanceAs (Decidable True)
  | some e => inferInstanceAs (Decidable (e < epoch ∨ e = epoch ∧ (_ ∨ _)))

namespace OxpullWorkflowNode

/-- `record_outcome` -/
def record (n : OxpullWorkflowNode) (status : Status) (epoch : ℕ) : OxpullWorkflowNode :=
  if recordTakes n.outcome n.outcomeEpoch status epoch then
    { n with outcome := some status, outcomeEpoch := some epoch, succeeded := status = .successful }
  else n

@[simp] theorem record_pk (n : OxpullWorkflowNode) (st : Status) (e : ℕ) :
    (n.record st e).pk = n.pk := by
  unfold record
  split_ifs <;> rfl

@[simp] theorem record_task (n : OxpullWorkflowNode) (st : Status) (e : ℕ) :
    (n.record st e).task = n.task := by
  unfold record
  split_ifs <;> rfl

@[simp] theorem record_workflow (n : OxpullWorkflowNode) (st : Status) (e : ℕ) :
    (n.record st e).workflow = n.workflow := by
  unfold record
  split_ifs <;> rfl

/-- The record afterwards is the new one or the old one. -/
theorem record_outcome (n : OxpullWorkflowNode) (st : Status) (e : ℕ) :
    (n.record st e).outcome = some st ∨ n.record st e = n := by
  unfold record
  split_ifs
  · exact .inl rfl
  · exact .inr rfl

theorem record_outcome_ne (n : OxpullWorkflowNode) (st : Status) (e : ℕ) (h : n.outcome ≠ none) :
    (n.record st e).outcome ≠ none := by
  rcases n.record_outcome st e with h' | h' <;> simp [h', h]

end OxpullWorkflowNode

/-- `_record_many`: each node takes the first record given for its key. -/
def recordMany (nodes : List OxpullWorkflowNode) (records : List (ℕ × Status × ℕ)) :
    List OxpullWorkflowNode :=
  nodes.map fun n =>
    match records.find? (·.1 = n.pk) with
    | some (_, st, e) => n.record st e
    | none => n

/-- `_mark_satisfied` -/
def markSatisfied (edges : List OxpullWorkflowEdge) (pks : List ℕ) : List OxpullWorkflowEdge :=
  edges.map fun e => if e.pk ∈ pks then { e with satisfied := true } else e

/-- How completion reads one node. -/
inductive NodeKind
  | pending
  | repair
  | recorded
  | unknown
  deriving DecidableEq, Repr

namespace OxpullWorkflowNode

/-- `_with_classes`: the `kind` of a node, from the status and the epoch of its task row. -/
def kind (n : OxpullWorkflowNode) : Option (Status × ℕ) → NodeKind
  | none => if n.outcome = none then .unknown else .recorded
  | some (st, e) =>
    if ¬ st.Settled then .pending
    else if recordTakes n.outcome n.outcomeEpoch st e then .repair
    else .recorded

/-- `settled_as` -/
def settledAs (n : OxpullWorkflowNode) (row : Option (Status × ℕ)) : Option Status :=
  match row with
  | none => n.outcome
  | some (st, _) => if n.kind row = .repair ∨ n.outcome = none then some st else n.outcome

end OxpullWorkflowNode

section lists

variable {nodes : List OxpullWorkflowNode} {edges : List OxpullWorkflowEdge}

/-- Each node is left as it was, or takes a record given for its key. -/
theorem exists_recordMany (nodes : List OxpullWorkflowNode) (records : List (ℕ × Status × ℕ)) :
    ∃ f, recordMany nodes records = nodes.map f ∧
      ∀ n, f n = n ∨ ∃ st e, (n.pk, st, e) ∈ records ∧ f n = n.record st e := by
  refine ⟨_, rfl, fun n => ?_⟩
  cases hf : records.find? (·.1 = n.pk) with
  | none => exact .inl (by simp)
  | some x =>
    obtain ⟨pk, st, e⟩ := x
    have hpk : pk = n.pk := by simpa using List.find?_some hf
    exact .inr ⟨st, e, hpk ▸ List.mem_of_find?_eq_some hf, by simp⟩

theorem mem_markSatisfied {pks : List ℕ} {e' : OxpullWorkflowEdge} :
    e' ∈ markSatisfied edges pks ↔
      ∃ e ∈ edges, e' = if e.pk ∈ pks then { e with satisfied := true } else e := by
  simp [markSatisfied, eq_comm]

end lists

end DjangoOx
