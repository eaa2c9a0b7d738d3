import DjangoOx.Workflow.Steps
import Mathlib.Algebra.BigOperators.Group.List.Lemmas

/-! `_classify`: the nodes of a workflow, counted the way completion reads them. -/
namespace DjangoOx

/-- `RETRYABLE_DEAD_STATUSES` -/
def Status.RetryableDead (s : Status) : Prop := s = failed ∨ s = lost

instance : DecidablePred Status.RetryableDead :=
  fun s => inferInstanceAs (Decidable (s = _ ∨ s = _))

/-- `_Classes` -/
structure Classes where
  nodes : ℕ
  pending : ℕ
  repair : ℕ
  succeeded : ℕ
  failed : ℕ
  discardedRows : ℕ
  deadRows : ℕ
  deriving DecidableEq, Repr

/-- What `_classify` groups the nodes by. -/
structure NodeClass where
  kind : NodeKind
  settledAs : Option Status
  rowStatus : Option Status
  deriving DecidableEq, Repr

namespace NodeClass

def RowDead (k : NodeClass) : Prop := ∃ st ∈ k.rowStatus, st.RetryableDead

def SettledAs (k : NodeClass) (st : Status) : Prop := k.kind ≠ .pending ∧ k.settledAs = some st

instance (k : NodeClass) : Decidable k.RowDead :=
  inferInstanceAs (Decidable (∃ st ∈ k.rowStatus, st.RetryableDead))

instance (k : NodeClass) (st : Status) : Decidable (k.SettledAs st) :=
  inferInstanceAs (Decidable (_ ∧ _))

end NodeClass

namespace Classes

def zero : Classes := ⟨0, 0, 0, 0, 0, 0, 0⟩

/-- One group. -/
def add (c : Classes) (k : NodeClass) (count : ℕ) : Classes :=
  let c := { c with nodes := c.nodes + count }
  let c :=
    if k.rowStatus = some .discarded then { c with discardedRows := c.discardedRows + count }
    else if k.RowDead then { c with deadRows := c.deadRows + count }
    else c
  if k.kind = .pending then { c with pending := c.pending + count }
  else
    let c := if k.kind = .repair then { c with repair := c.repair + count } else c
    if k.settledAs = some .successful then { c with succeeded := c.succeeded + count }
    else if k.settledAs = some .failed then { c with failed := c.failed + count }
    else c

/-- The rows that the statement answers with, a group of equal nodes each. -/
def ofGroups (l : List NodeClass) : Classes :=
  l.dedup.foldl (fun c k => c.add k (l.count k)) .zero

/-- `unattributed` -/
def unattributed (c : Classes) (total : ℕ) : ℕ := total - (c.succeeded + c.failed)

end Classes

namespace WorkflowState

/-- `_with_classes` -/
def classOf (s : WorkflowState) (n : OxpullWorkflowNode) : NodeClass :=
  ⟨n.kind (s.row n.task), n.settledAs (s.row n.task), s.status n.task⟩

def nodesOf (s : WorkflowState) (w : ℕ) : List OxpullWorkflowNode :=
  s.nodes.filter (·.workflow = w)

/-- `_classify`, one statement. -/
def classify (s : WorkflowState) (w : ℕ) : Classes := .ofGroups ((s.nodesOf w).map s.classOf)

end WorkflowState

namespace Classes

/-- The nodes counted one by one. -/
def count (l : List NodeClass) : Classes where
  nodes := l.length
  pending := l.countP (·.kind = .pending)
  repair := l.countP (·.kind = .repair)
  succeeded := l.countP (·.SettledAs .successful)
  failed := l.countP (·.SettledAs .failed)
  discardedRows := l.countP (·.rowStatus = some .discarded)
  deadRows := l.countP (·.RowDead)

theorem not_rowDead {k : NodeClass} (h : k.rowStatus = some .discarded) : ¬ k.RowDead := by
  rintro ⟨st, hst, hdead⟩
  obtain rfl := Option.some.inj (h.symm.trans hst)
  cases hdead <;> contradiction

theorem add_eq (c : Classes) (k : NodeClass) (n : ℕ) :
    c.add k n =
      { nodes := c.nodes + n
        pending := c.pending + if k.kind = .pending then n else 0
        repair := c.repair + if k.kind = .repair then n else 0
        succeeded := c.succeeded + if k.SettledAs .successful then n else 0
        failed := c.failed + if k.SettledAs .failed then n else 0
        discardedRows := c.discardedRows + if k.rowStatus = some .discarded then n else 0
        deadRows := c.deadRows + if k.RowDead then n else 0 } := by
  have hdead := not_rowDead (k := k)
  unfold add NodeClass.SettledAs
  split_ifs <;> simp_all

/-- What one group adds to a count, the classification adds up. -/
theorem count_foldl (g : Classes → ℕ) (q : NodeClass → Prop) [DecidablePred q]
    (hzero : g .zero = 0) (hadd : ∀ c k n, g (c.add k n) = g c + if q k then n else 0)
    (l : List NodeClass) :
    g (ofGroups l) = l.countP q := by
  have hfold : ∀ (m : List NodeClass) (c : Classes),
      g (m.foldl (fun c k => add c k (l.count k)) c) =
        g c + ((m.filter q).map (l.count ·)).sum := by
    intro m
    induction m with
    | nil => exact fun _ => rfl
    | cons k m ih =>
      intro c
      rw [List.foldl_cons, ih, hadd]
      by_cases hk : q k
      · simp [hk, Nat.add_assoc]
      · simp [hk]
  unfold ofGroups
  rw [hfold, hzero, Nat.zero_add]
  exact List.sum_map_count_dedup_filter_eq_countP _ l

/-- Classified by groups or one by one, the nodes count the same. -/
theorem ofGroups_eq (l : List NodeClass) : ofGroups l = count l := by
  have hnodes := count_foldl (·.nodes) (fun _ => True) rfl
    (fun c k n => by rw [add_eq, if_pos trivial]) l
  have hpending := count_foldl (·.pending) (·.kind = .pending) rfl
    (fun c k n => by rw [add_eq]) l
  have hrepair := count_foldl (·.repair) (·.kind = .repair) rfl (fun c k n => by rw [add_eq]) l
  have hsucceeded := count_foldl (·.succeeded) (·.SettledAs .successful) rfl
    (fun c k n => by rw [add_eq]) l
  have hfailed := count_foldl (·.failed) (·.SettledAs .failed) rfl
    (fun c k n => by rw [add_eq]) l
  have hdiscarded := count_foldl (·.discardedRows) (·.rowStatus = some .discarded) rfl
    (fun c k n => by rw [add_eq]) l
  have hdead := count_foldl (·.deadRows) (·.RowDead) rfl (fun c k n => by rw [add_eq]) l
  cases hc : ofGroups l with
  | mk nodes pending repair succeeded failed discardedRows deadRows =>
    rw [hc] at hnodes hpending hrepair hsucceeded hfailed hdiscarded hdead
    simp only [decide_true, List.countP_true] at hnodes
    subst hnodes hpending hrepair hsucceeded hfailed hdiscarded hdead
    rfl

end Classes

namespace WorkflowState

variable {s : WorkflowState} {w : ℕ}

theorem classify_eq (s : WorkflowState) (w : ℕ) :
    s.classify w = .count ((s.nodesOf w).map s.classOf) :=
  Classes.ofGroups_eq _

/-- Where nothing is pending, every node's row is settled or gone. -/
theorem settled_of_pending (h : (s.classify w).pending = 0) {n : OxpullWorkflowNode}
    (hn : n ∈ s.nodesOf w) {st : Status} (hst : s.status n.task = some st) : st.Settled := by
  rw [classify_eq] at h
  have hnone := List.countP_eq_zero.mp h _ (List.mem_map_of_mem hn)
  by_contra hsettled
  obtain ⟨r, hr, rfl⟩ := Option.map_eq_some_iff.mp hst
  have hrow : s.row n.task = some (r.row.status, r.row.leaseEpoch) := by simp [row, hr]
  simp [classOf, hrow, OxpullWorkflowNode.kind, hsettled] at hnone

theorem kind_of_pending (h : (s.classify w).pending = 0) {n : OxpullWorkflowNode}
    (hn : n ∈ s.nodesOf w) : (s.classOf n).kind ≠ .pending := by
  rw [classify_eq] at h
  simpa using List.countP_eq_zero.mp h _ (List.mem_map_of_mem hn)

/-- Nothing failed and nothing is unattributed exactly where every node settled as SUCCESSFUL. -/
theorem clean_iff (h : (s.classify w).pending = 0) :
    (s.classify w).failed = 0 ∧ (s.classify w).unattributed (s.nodesOf w).length = 0 ↔
      ∀ n ∈ s.nodesOf w, n.settledAs (s.row n.task) = some .successful := by
  have hkind := fun n => kind_of_pending (n := n) h
  rw [classify_eq]
  unfold Classes.unattributed
  show ((s.nodesOf w).map s.classOf).countP (·.SettledAs .failed) = 0 ∧
    (s.nodesOf w).length - (((s.nodesOf w).map s.classOf).countP (·.SettledAs .successful) +
      ((s.nodesOf w).map s.classOf).countP (·.SettledAs .failed)) = 0 ↔ _
  rw [List.countP_map, List.countP_map]
  have hle := List.countP_le_length (l := s.nodesOf w)
    (p := (fun k => decide (NodeClass.SettledAs k .successful)) ∘ s.classOf)
  constructor
  · rintro ⟨hfailed, hunattributed⟩ n hn
    have hfull : (s.nodesOf w).countP
        ((fun k => decide (NodeClass.SettledAs k .successful)) ∘ s.classOf) =
          (s.nodesOf w).length := by omega
    have hall := List.countP_eq_length.mp hfull n hn
    have hsettled : (s.classOf n).SettledAs .successful := by simpa using hall
    exact hsettled.2
  · intro hall
    have hfailed : (s.nodesOf w).countP
        ((fun k => decide (NodeClass.SettledAs k .failed)) ∘ s.classOf) = 0 := by
      apply List.countP_eq_zero.mpr
      intro n hn
      simp [NodeClass.SettledAs, classOf, hall n hn]
    have hsucceeded : (s.nodesOf w).countP
        ((fun k => decide (NodeClass.SettledAs k .successful)) ∘ s.classOf) =
          (s.nodesOf w).length := by
      apply List.countP_eq_length.mpr
      intro n hn
      have hsettled : (s.classOf n).SettledAs .successful := ⟨hkind n hn, hall n hn⟩
      simpa using hsettled
    exact ⟨hfailed, by omega⟩

end WorkflowState

end DjangoOx
