import DjangoOx.Workflow.Completing
import Mathlib.Data.List.Perm.Subperm

/-! The FAILED and LOST rows that a completing transaction holds, against the steps of the other
parties. -/
namespace DjangoOx

open Machine

namespace WorkflowState

variable {s s' : WorkflowState} {x w : ℕ} {u : TaskId} {p c : Option ℕ}

/-- The dead row is under the party's lock, as it was read. -/
def Locked (s : WorkflowState) (x : ℕ) (d : DeadRow) : Prop :=
  s.holder d.task = some x ∧ s.row d.task = some (d.status, d.epoch)

/-- Nobody but the party can move the task's row to a status that is not settled. -/
def Resolved (s : WorkflowState) (x : ℕ) (u : TaskId) : Prop :=
  ∀ r, s.rows u = some r →
    r.row.status.Retirable ∨ s.holder u = some x ∧ r.row.status.RetryableDead

/-- Where the transaction of a completion stands with its locks. -/
structure Locking (s : WorkflowState) (x w : ℕ) (dead unlocked gone : List DeadRow) : Prop where
  nodup : (dead.map (·.task)).Nodup
  read : unlocked ⊆ dead
  ofNodes : ∀ d ∈ dead, d.task ∈ s.tasksOf w ∧ d.status.RetryableDead
  each : ∀ d ∈ dead, d ∈ unlocked ∨ d ∈ gone ∨ s.Locked x d
  pruned : ∀ d ∈ gone, d ∈ dead ∧ s.rows d.task = none

/-- The transaction holds a SEALED workflow's row. -/
def Held (s : WorkflowState) (x w : ℕ) : Prop :=
  ∃ f, s.workflows w = some f ∧ f.status = .sealed ∧ s.owner w = some x

theorem row_of_rows (h : s'.rows u = s.rows u) : s'.row u = s.row u := by
  unfold row
  rw [h]

theorem Held.turn (h : s.Held x w) (ht : Turn s s' p c) (hp : p ≠ some x) (hc : c ≠ some w) :
    s'.Held x w ∧ s'.workflows w = s.workflows w := by
  obtain ⟨f, hf, hst, hown⟩ := h
  rcases ht.sealed hf hst with hsame | ⟨hcomplete, -⟩
  · exact ⟨⟨f, hsame, hst, ht.owner w x hown hp⟩, hsame.trans hf.symm⟩
  · exact absurd hcomplete hc

theorem mem_used (hr : s.RecordInv) (h : u ∈ s.tasksOf w) : u ∈ s.used := by
  obtain ⟨n, hn, -, rfl⟩ := mem_tasksOf.mp h
  exact hr.nodeUsed n hn

theorem Locked.turn {d : DeadRow} (h : s.Locked x d) (hr : s.RecordInv) (ht : Turn s s' p c)
    (hp : p ≠ some x) : s'.Locked x d := by
  obtain ⟨hheld, hrow⟩ := h
  refine ⟨ht.holder _ x hheld hp, ?_⟩
  cases ht.rows d.task with
  | same hsame => exact (row_of_rows hsame).trans hrow
  | moved r r' _ _ hfree => exact absurd (hfree x hheld) hp
  | gone _ hfree =>
    rw [hfree] at hheld
    cases hheld
  | born hnew =>
    refine absurd (hr.rowsUsed _ fun hnone => ?_) hnew
    unfold row at hrow
    rw [hnone] at hrow
    cases hrow

theorem Resolved.turn (h : s.Resolved x u) (hu : u ∈ s.used) (ht : Turn s s' p c)
    (hp : p ≠ some x) : s'.Resolved x u := by
  intro r' hr'
  cases ht.rows u with
  | same hsame =>
    rcases h r' (hsame ▸ hr') with hfinal | ⟨hheld, hdead⟩
    · exact .inl hfinal
    · exact .inr ⟨ht.holder u x hheld hp, hdead⟩
  | moved r r₁ hr hr₁ hfree hfinal =>
    obtain rfl := Option.some.inj (hr'.symm.trans hr₁)
    rcases h r hr with hdone | ⟨hheld, -⟩
    · have hst := hfinal hdone
      exact .inl (hst ▸ hdone)
    · exact absurd (hfree x hheld) hp
  | gone hnone =>
    rw [hnone] at hr'
    cases hr'
  | born hnew => exact absurd hu hnew

theorem Locking.turn {dead unlocked gone : List DeadRow} {f : OxpullWorkflow}
    (h : s.Locking x w dead unlocked gone) (hi : s.CountInv) (hr : s.RecordInv)
    (ht : Turn s s' p c) (hp : p ≠ some x) (hf : s.workflows w = some f)
    (hst : f.status = .sealed) : s'.Locking x w dead unlocked gone := by
  have htasks := hi.tasksOf_turn ht hf hst
  refine ⟨h.nodup, h.read, fun d hd => ?_, fun d hd => ?_, fun d hd => ?_⟩
  · rw [htasks]
    exact h.ofNodes d hd
  · rcases h.each d hd with hun | hgone | hlocked
    · exact .inl hun
    · exact .inr (.inl hgone)
    · exact .inr (.inr (hlocked.turn hr ht hp))
  · obtain ⟨hmem, hnone⟩ := h.pruned d hd
    exact ⟨hmem, none_of_turn hnone (mem_used hr (h.ofNodes d hmem).1) ht⟩

/-- The dead rows that are not under the transaction's locks when it counts as many as it read:
each stands for one that was pruned before its lock. -/
theorem Locking.loose {dead gone : List DeadRow} (h : s.Locking x w dead [] gone)
    (hpending : (s.classify w).pending = 0)
    (hdead : (s.classify w).deadRows = dead.length) :
    ∃ loose : List TaskId, loose.length ≤ gone.length ∧
      ∀ u ∈ s.tasksOf w, u ∈ loose ∨ s.Resolved x u := by
  let held := (dead.filter (· ∉ gone)).map (·.task)
  let rows := (s.tasksOf w).filter fun u => ∃ st ∈ s.status u, st.RetryableDead
  have hlocked : ∀ d ∈ dead, d ∉ gone → s.Locked x d := by
    intro d hd hgone
    rcases h.each d hd with hun | hin | hlock
    · cases hun
    · exact absurd hin hgone
    · exact hlock
  have hcount : rows.length = dead.length := by
    rw [← hdead, classify_eq]
    show _ = ((s.nodesOf w).map s.classOf).countP _
    rw [List.countP_map]
    show ((s.tasksOf w).filter _).length = _
    rw [tasksOf_eq, ← List.countP_eq_length_filter, List.countP_map]
    rfl
  have hheld : dead.length ≤ held.length + gone.length := by
    have hsplit := List.length_eq_length_filter_add (l := dead) fun d => decide (d ∈ gone)
    have hsub : (dead.filter fun d => decide (d ∈ gone)).length ≤ gone.length := by
      have hn : dead.Nodup := h.nodup.of_map
      refine ((hn.filter _).subperm fun d hd => ?_).length_le
      simpa using (List.mem_filter.mp hd).2
    have hrest : held.length = (dead.filter fun d => !decide (d ∈ gone)).length := by
      simp [held]
    omega
  have hheldRows : held ⊆ rows := by
    intro u hu
    obtain ⟨d, hd, rfl⟩ := List.mem_map.mp hu
    obtain ⟨hmem, hgone⟩ := List.mem_filter.mp hd
    have hlock := hlocked d hmem (by simpa using hgone)
    obtain ⟨htask, hst⟩ := h.ofNodes d hmem
    refine List.mem_filter.mpr ⟨htask, ?_⟩
    have hstatus : s.status d.task = some d.status := status_of_row hlock.2
    simpa [hstatus] using hst
  have hheldNodup : held.Nodup := h.nodup.sublist (List.filter_sublist.map _)
  refine ⟨rows.filter (· ∉ held), ?_, fun u hu => ?_⟩
  · have hsplit := List.length_eq_length_filter_add (l := rows) fun u => decide (u ∈ held)
    have hsub : held.length ≤ (rows.filter fun u => decide (u ∈ held)).length := by
      refine (hheldNodup.subperm fun u hu => ?_).length_le
      exact List.mem_filter.mpr ⟨hheldRows hu, by simpa using hu⟩
    have hrest : (rows.filter (· ∉ held)).length =
        (rows.filter fun u => !decide (u ∈ held)).length := by
      simp
    omega
  · by_cases hrow : u ∈ rows
    · by_cases hin : u ∈ held
      · refine .inr fun r hr => ?_
        obtain ⟨d, hd, rfl⟩ := List.mem_map.mp hin
        obtain ⟨hmem, hgone⟩ := List.mem_filter.mp hd
        have hlock := hlocked d hmem (by simpa using hgone)
        have hstatus : s.status d.task = some d.status := status_of_row hlock.2
        have hsame : r.row.status = d.status := by simpa [status, hr] using hstatus
        exact .inr ⟨hlock.1, hsame ▸ (h.ofNodes d hmem).2⟩
      · exact .inl (List.mem_filter.mpr ⟨hrow, by simpa using hin⟩)
    · refine .inr fun r hr => .inl ?_
      have hstatus : s.status u = some r.row.status := by simp [status, hr]
      obtain ⟨n, hn, hw, rfl⟩ := mem_tasksOf.mp hu
      have hnode : n ∈ s.nodesOf w := List.mem_filter.mpr ⟨hn, by simpa using hw⟩
      have hsettled := settled_of_pending hpending hnode hstatus
      have hnot : ¬ r.row.status.RetryableDead := by
        intro hd
        exact hrow (List.mem_filter.mpr ⟨hu, by simpa [hstatus] using hd⟩)
      unfold Status.RetryableDead at hnot
      unfold Status.Retirable
      rcases hsettled with hst | hst | hst | hst
      · exact .inl hst
      · exact absurd (.inl hst) hnot
      · exact absurd (.inr hst) hnot
      · exact .inr hst

end WorkflowState

end DjangoOx
