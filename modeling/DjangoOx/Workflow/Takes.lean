import DjangoOx.Machine.Ternary
import DjangoOx.Machine.Replay
import DjangoOx.Workflow.Rows

/-! Which writes a node's record takes, as the queries spell it, and what any order of them leaves
of it. -/
namespace DjangoOx

open Machine

/-- `outcome_accepts_q`: `none` for the ValueError of a status no record holds. -/
def outcomeAcceptsQ (status : Status) (epoch : ℕ) : Option (Condition OxpullWorkflowNode) :=
  let outcomeIsNull := Condition.isNull OxpullWorkflowNode.outcome
  let sameEpoch := if status ≠ .lost then
      outcomeIsNull.either (Condition.equals OxpullWorkflowNode.outcome fun _ => some .lost)
    else outcomeIsNull
  if ¬ status.Settled then none
  else some <|
    ((Condition.isNull OxpullWorkflowNode.outcomeEpoch).either
      (Condition.less OxpullWorkflowNode.outcomeEpoch fun _ => some epoch)).either
    ((Condition.equals OxpullWorkflowNode.outcomeEpoch fun _ => some epoch).both sameEpoch)

/-- A node with the status and the epoch of its task row, NULL when the row is gone. -/
structure NodeWithRow extends OxpullWorkflowNode where
  rowStatus : Option Status
  rowEpoch : Option ℕ

/-- `_row_taken_q` -/
def rowTakenQ : Condition NodeWithRow :=
  let outcome : NodeWithRow → Option Status := fun n => n.outcome
  let outcomeEpoch : NodeWithRow → Option ℕ := fun n => n.outcomeEpoch
  let sameEpoch := (Condition.isNull outcome).either
    ((Condition.equals outcome fun _ => some .lost).both
      (Condition.equals NodeWithRow.rowStatus fun _ => some .lost).negate)
  ((Condition.isNull outcomeEpoch).either
    (Condition.less outcomeEpoch NodeWithRow.rowEpoch)).either
  ((Condition.equals outcomeEpoch NodeWithRow.rowEpoch).both sameEpoch)

/-- A write of a status at an epoch. -/
abbrev Written := Status × ℕ

/-- `record_outcome`: the guarded UPDATE of one node's record. -/
def recordOutcome (n : OxpullWorkflowNode) (w : Written) : Option OxpullWorkflowNode :=
  (outcomeAcceptsQ w.1 w.2).map fun q =>
    if q.Selects n then
      { n with outcome := some w.1, outcomeEpoch := some w.2, succeeded := w.1 = .successful }
    else n

section spellings

variable {n : OxpullWorkflowNode} {st : Status} {e : ℕ}

theorem outcomeAcceptsQ_selects (h : st.Settled) :
    ∃ q, outcomeAcceptsQ st e = some q ∧
      (q.Selects n ↔ recordTakes n.outcome n.outcomeEpoch st e) := by
  unfold outcomeAcceptsQ recordTakes
  refine ⟨_, if_neg (not_not.mpr h), ?_⟩
  by_cases hlost : st = .lost
  · simp only [hlost, ne_eq, not_true_eq_false, if_false, Condition.selects_either,
      Condition.selects_both, Condition.selects_isNull, Condition.selects_less,
      Condition.selects_equals]
    cases n.outcomeEpoch <;> simp [eq_comm]
  · simp only [hlost, ne_eq, not_false_eq_true, if_true, Condition.selects_either,
      Condition.selects_both, Condition.selects_isNull, Condition.selects_less,
      Condition.selects_equals]
    cases n.outcomeEpoch <;> simp [eq_comm]

theorem rowTakenQ_selects :
    rowTakenQ.Selects ⟨n, some st, some e⟩ ↔ recordTakes n.outcome n.outcomeEpoch st e := by
  unfold rowTakenQ recordTakes
  simp only [Condition.selects_either, Condition.selects_both, Condition.selects_isNull,
    Condition.selects_less, Condition.selects_equals, Condition.selects_negate_equals]
  cases n.outcomeEpoch <;> simp [eq_comm]

theorem recordOutcome_eq (w : Written) :
    recordOutcome n w = if w.1.Settled then some (n.record w.1 w.2) else none := by
  unfold recordOutcome
  by_cases h : w.1.Settled
  · obtain ⟨q, hq, hsel⟩ := outcomeAcceptsQ_selects (n := n) (e := w.2) h
    rw [hq, if_pos h, Option.map_some]
    unfold OxpullWorkflowNode.record
    simp only [hsel]
  · have hnone : outcomeAcceptsQ w.1 w.2 = none := if_pos h
    rw [hnone, if_neg h, Option.map_none]

end spellings

namespace OxpullWorkflowNode

variable {n n' : OxpullWorkflowNode} {w a b : Written} {ws : List Written}

/-- The record takes the write. -/
def Takes (n : OxpullWorkflowNode) (w : Written) : Prop :=
  recordTakes n.outcome n.outcomeEpoch w.1 w.2

instance (n : OxpullWorkflowNode) (w : Written) : Decidable (n.Takes w) :=
  inferInstanceAs (Decidable (recordTakes _ _ _ _))

theorem record_of_takes (h : n.Takes w) : n.record w.1 w.2 =
    { n with outcome := some w.1, outcomeEpoch := some w.2, succeeded := w.1 = .successful } :=
  if_pos h

theorem record_of_not_takes (h : ¬ n.Takes w) : n.record w.1 w.2 = n :=
  if_neg h

/-- A write that is not taken: the record is of a later epoch, or of this one and settled, or both
are observations of LOST. -/
theorem not_takes_iff : ¬ n.Takes w ↔ ∃ e, n.outcomeEpoch = some e ∧ (w.2 < e ∨
    w.2 = e ∧ ∃ st, n.outcome = some st ∧ (st = .lost → w.1 = .lost)) := by
  unfold Takes recordTakes
  cases n.outcomeEpoch with
  | none => simp
  | some e =>
    cases n.outcome with
    | none => simp; omega
    | some st =>
      by_cases hst : st = .lost <;> by_cases hw : w.1 = .lost <;> simp [hst, hw] <;> omega

/-- A node holds a record it does not take once more. -/
theorem not_takes_record : ¬ (n.record w.1 w.2).Takes w := by
  by_cases h : n.Takes w
  · rw [record_of_takes h, not_takes_iff]
    exact ⟨w.2, rfl, .inr ⟨rfl, w.1, rfl, id⟩⟩
  · rwa [record_of_not_takes h]

/-- What a record refuses it refuses after any other write. -/
theorem not_takes_record_of_not_takes (h : ¬ n.Takes w) (a : Written) :
    ¬ (n.record a.1 a.2).Takes w := by
  by_cases ha : n.Takes a
  · rw [record_of_takes ha]
    obtain ⟨e, he, hw⟩ := not_takes_iff.mp h
    rw [not_takes_iff]
    refine ⟨a.2, rfl, ?_⟩
    unfold Takes recordTakes at ha
    rw [he] at ha
    rcases ha with ha | ⟨ha, hsame⟩
    · left
      omega
    · rcases hw with hw | ⟨hw, st, hst, hlost⟩
      · left
        omega
      · right
        refine ⟨by omega, a.1, rfl, ?_⟩
        -- The record gave way to `a` at its own epoch: it held LOST, and so does the write.
        rcases hsame with hnone | ⟨hl, hne⟩
        · rw [hst] at hnone
          cases hnone
        · exact fun hal => absurd hal hne
  · rwa [record_of_not_takes ha]

/-- The writes of one history: at one epoch they agree, observations of LOST apart. -/
def Consistent (ws : List Written) : Prop :=
  ∀ a ∈ ws, ∀ b ∈ ws, a.2 = b.2 → a.1 ≠ .lost → b.1 ≠ .lost → a.1 = b.1

/-- A write that the later epoch's makes idle. -/
theorem record_record_of_lt (h : a.2 < b.2) :
    (n.record a.1 a.2).record b.1 b.2 = n.record b.1 b.2 := by
  by_cases ha : n.Takes a
  · have hb : n.Takes b := by
      unfold Takes recordTakes at ha ⊢
      split at ha
      · trivial
      · left
        omega
    have hlater : (n.record a.1 a.2).Takes b := by
      rw [record_of_takes ha]
      exact .inl h
    rw [record_of_takes hlater, record_of_takes hb, record_of_takes ha]
  · rw [record_of_not_takes ha]

/-- At one epoch, an observation of LOST before the outcome leaves the outcome. -/
theorem record_lost_record (h : a.2 = b.2) (ha : a.1 = .lost) (hb : b.1 ≠ .lost) :
    (n.record a.1 a.2).record b.1 b.2 = n.record b.1 b.2 := by
  by_cases htakes : n.Takes a
  · have hsame : n.Takes b := by
      unfold Takes recordTakes at htakes ⊢
      split at htakes
      · trivial
      · rcases htakes with hlt | ⟨he, hnone | ⟨-, hne⟩⟩
        · left
          omega
        · exact .inr ⟨by omega, .inl hnone⟩
        · exact absurd ha hne
    have hover : (n.record a.1 a.2).Takes b := by
      rw [record_of_takes htakes]
      exact .inr ⟨h, .inr ⟨congrArg some ha, hb⟩⟩
    rw [record_of_takes hover, record_of_takes hsame, record_of_takes htakes]
  · rw [record_of_not_takes htakes]

/-- After a write, an earlier one does nothing. -/
theorem record_record_of_gt (h : b.2 < a.2) :
    (n.record a.1 a.2).record b.1 b.2 = n.record a.1 a.2 := by
  refine record_of_not_takes ?_
  by_cases ha : n.Takes a
  · rw [record_of_takes ha, not_takes_iff]
    exact ⟨a.2, rfl, .inl h⟩
  · rw [record_of_not_takes ha, not_takes_iff]
    obtain ⟨e, he, hw⟩ := not_takes_iff.mp ha
    exact ⟨e, he, .inl (by omega)⟩

/-- After the outcome, an observation of LOST at its epoch does nothing. -/
theorem record_record_lost (h : a.2 = b.2) (hb : b.1 = .lost) :
    (n.record a.1 a.2).record b.1 b.2 = n.record a.1 a.2 := by
  refine record_of_not_takes ?_
  by_cases ha : n.Takes a
  · rw [record_of_takes ha, not_takes_iff]
    exact ⟨a.2, rfl, .inr ⟨h.symm, a.1, rfl, fun _ => hb⟩⟩
  · rw [record_of_not_takes ha, not_takes_iff]
    obtain ⟨e, he, hlt | ⟨hw, st, hst, hlost⟩⟩ := not_takes_iff.mp ha
    · exact ⟨e, he, .inl (by omega)⟩
    · exact ⟨e, he, .inr ⟨by omega, st, hst, fun _ => hb⟩⟩

/-- Two writes of one history leave the same record in either order. -/
theorem record_comm (hsame : a.2 = b.2 → a.1 ≠ .lost → b.1 ≠ .lost → a.1 = b.1) :
    (n.record a.1 a.2).record b.1 b.2 = (n.record b.1 b.2).record a.1 a.2 := by
  rcases lt_trichotomy a.2 b.2 with h | h | h
  · rw [record_record_of_lt h, record_record_of_gt h]
  · by_cases ha : a.1 = .lost <;> by_cases hb : b.1 = .lost
    · rw [ha, hb, h]
    · rw [record_lost_record h ha hb, record_record_lost h.symm ha]
    · rw [record_record_lost h hb, record_lost_record h.symm hb ha]
    · rw [hsame h ha hb, h]
  · rw [record_record_of_gt h, record_record_of_lt h]

/-- A run of writes to the record. -/
def recordAll (n : OxpullWorkflowNode) (ws : List Written) : OxpullWorkflowNode :=
  ws.foldl (fun n w => n.record w.1 w.2) n

theorem foldlM_recordOutcome (n : OxpullWorkflowNode) (ws : List Written) :
    ws.foldlM recordOutcome n =
      if ∀ w ∈ ws, w.1.Settled then some (n.recordAll ws) else none := by
  induction ws generalizing n with
  | nil => simp [recordAll]
  | cons w ws ih =>
    rw [List.foldlM_cons, recordOutcome_eq]
    by_cases hw : w.1.Settled
    · rw [if_pos hw, Option.bind_eq_bind, Option.bind_some, ih]
      simp only [List.forall_mem_cons, hw, true_and]
      rfl
    · simp [hw]

theorem recordAll_not_takes (h : ¬ n.Takes w) : ¬ (n.recordAll ws).Takes w := by
  induction ws generalizing n with
  | nil => exact h
  | cons a ws ih => exact ih (not_takes_record_of_not_takes h a)

/-- A write that was made is refused from then on. -/
theorem recordAll_not_takes_of_mem (h : w ∈ ws) : ¬ (n.recordAll ws).Takes w := by
  induction ws generalizing n with
  | nil => exact absurd h List.not_mem_nil
  | cons a ws ih =>
    change ¬ ((n.record a.1 a.2).recordAll ws).Takes w
    rcases List.mem_cons.mp h with rfl | h
    · exact recordAll_not_takes not_takes_record
    · exact ih h

/-- A settled record refuses every write up to its epoch. -/
theorem recordAll_of_settled {e : ℕ} {st : Status} (he : n.outcomeEpoch = some e)
    (hst : n.outcome = some st) (hl : st ≠ .lost) (hws : ∀ w ∈ ws, w.2 ≤ e) :
    n.recordAll ws = n := by
  induction ws with
  | nil => rfl
  | cons w ws ih =>
    have hw : ¬ n.Takes w := by
      have hle := hws w List.mem_cons_self
      rw [not_takes_iff]
      refine ⟨e, he, ?_⟩
      rcases hle.lt_or_eq with hlt | heq
      · exact .inl hlt
      · exact .inr ⟨heq, st, hst, fun h => absurd h hl⟩
    change (n.record w.1 w.2).recordAll ws = n
    rw [record_of_not_takes hw]
    exact ih fun w h => hws w (List.mem_cons_of_mem _ h)

theorem record_epoch_le {e : ℕ} (he : n.outcomeEpoch = some e) (w : Written) :
    ∃ e', (n.record w.1 w.2).outcomeEpoch = some e' ∧ e ≤ e' := by
  by_cases h : n.Takes w
  · rw [record_of_takes h]
    unfold Takes recordTakes at h
    rw [he] at h
    exact ⟨w.2, rfl, by omega⟩
  · rw [record_of_not_takes h]
    exact ⟨e, he, le_rfl⟩

theorem recordAll_epoch_le {e : ℕ} (he : n.outcomeEpoch = some e) :
    ∃ e', (n.recordAll ws).outcomeEpoch = some e' ∧ e ≤ e' := by
  induction ws generalizing n e with
  | nil => exact ⟨e, he, le_rfl⟩
  | cons w ws ih =>
    obtain ⟨e₁, h₁, hle⟩ := record_epoch_le he w
    obtain ⟨e₂, h₂, hle'⟩ := ih h₁
    exact ⟨e₂, h₂, hle.trans hle'⟩

/-- `succeeded` says what the record says. -/
def Truthful (n : OxpullWorkflowNode) : Prop := n.succeeded = true ↔ n.outcome = some .successful

theorem Truthful.record (h : n.Truthful) (w : Written) : (n.record w.1 w.2).Truthful := by
  by_cases hw : n.Takes w
  · rw [record_of_takes hw]
    simp [Truthful]
  · rwa [record_of_not_takes hw]

theorem Truthful.recordAll (h : n.Truthful) : (n.recordAll ws).Truthful := by
  induction ws generalizing n with
  | nil => exact h
  | cons w ws ih => exact ih (h.record w)

/-- Runs of the same writes leave the same record. -/
theorem recordAll_eq_of_mem_iff {ws' : List Written} (hws : Consistent ws)
    (h : ∀ w, w ∈ ws ↔ w ∈ ws') : n.recordAll ws = n.recordAll ws' :=
  foldl_eq_of_mem_iff (fun a ha b hb _ => record_comm (hws a ha b hb))
    (fun _ _ _ => record_of_not_takes not_takes_record) h n

/-- The table of a node's record: the three spellings of the rule, what a write that it takes sets,
what any run of guarded writes keeps, and that the order of one history's writes does not matter. -/
theorem record_table :
    (∀ (n : OxpullWorkflowNode) (st : Status) (e : ℕ), st.Settled →
      (∃ q, outcomeAcceptsQ st e = some q ∧
        (q.Selects n ↔ recordTakes n.outcome n.outcomeEpoch st e)) ∧
      (rowTakenQ.Selects ⟨n, some st, some e⟩ ↔ recordTakes n.outcome n.outcomeEpoch st e)) ∧
    (∀ (n : OxpullWorkflowNode) (w : Written), w.1.Settled →
      recordOutcome n w = some (if recordTakes n.outcome n.outcomeEpoch w.1 w.2 then
        { n with outcome := some w.1, outcomeEpoch := some w.2, succeeded := w.1 = .successful }
        else n)) ∧
    (∀ (n n' : OxpullWorkflowNode) (ws : List Written), ws.foldlM recordOutcome n = some n' →
      (∀ e, n.outcomeEpoch = some e → ∃ e', n'.outcomeEpoch = some e' ∧ e ≤ e') ∧
      (∀ e st, n.outcomeEpoch = some e → n.outcome = some st → st ≠ .lost →
        (∀ w ∈ ws, w.2 ≤ e) → n' = n) ∧
      (∀ w ∈ ws, recordOutcome n' w = some n') ∧
      (n.Truthful → n'.Truthful)) ∧
    ∀ (n : OxpullWorkflowNode) (ws ws' : List Written), Consistent ws →
      (∀ w, w ∈ ws ↔ w ∈ ws') → ws.foldlM recordOutcome n = ws'.foldlM recordOutcome n := by
  refine ⟨fun n st e h => ⟨outcomeAcceptsQ_selects h, rowTakenQ_selects⟩, ?_, ?_, ?_⟩
  · intro n w h
    rw [recordOutcome_eq, if_pos h]
    rfl
  · intro n n' ws h
    rw [foldlM_recordOutcome] at h
    obtain ⟨hsettled, h⟩ := Option.ite_none_right_eq_some.mp h
    obtain rfl := Option.some.inj h
    refine ⟨fun e he => recordAll_epoch_le he, ?_, ?_, Truthful.recordAll⟩
    · exact fun e st he hst hl hws => recordAll_of_settled he hst hl hws
    · intro w hw
      rw [recordOutcome_eq, if_pos (hsettled w hw),
        record_of_not_takes (recordAll_not_takes_of_mem hw)]
  · intro n ws ws' hws h
    rw [foldlM_recordOutcome, foldlM_recordOutcome, recordAll_eq_of_mem_iff hws h]
    simp only [h]

/-- A node with no record. -/
def unrecordedNode : OxpullWorkflowNode := ⟨1, 7, "send", 3, none, none, false⟩

/-- An observation of LOST gives way to the outcome of its epoch, which a late write leaves. -/
theorem record_table_lostFirst :
    let ws : List Written := [(.lost, 2), (.failed, 2), (.successful, 1)]
    let n : OxpullWorkflowNode := ⟨1, 7, "send", 3, some .failed, some 2, false⟩
    ws.foldlM recordOutcome unrecordedNode = some n ∧ ∀ w ∈ ws, recordOutcome n w = some n := by
  intro ws n
  have hrun : ws.foldlM recordOutcome unrecordedNode = some n := by decide
  exact ⟨hrun, (record_table.2.2.1 unrecordedNode n ws hrun).2.2.1⟩

end OxpullWorkflowNode

end DjangoOx
