import DjangoOx.Workflow.Ordering

/-! The records of nodes: a success, once recorded, is never recorded over. -/
namespace DjangoOx

open Machine

/-- The records a pass has read and not yet written: node key, task, status, epoch. -/
def WorkflowPass.records : WorkflowPass → List (ℕ × TaskId × Status × ℕ)
  | .repairing records | .looking _ records => records
  | _ => []

namespace WorkflowState

variable {s s' : WorkflowState} {x : ℕ} {t u : TaskId} {p : WorkflowPass}

/-- The record may be written: it is no newer than the row, a success is the row's last word, and no
recorded success is older. -/
structure Fits (s : WorkflowState) (t : TaskId) (st : Status) (e : ℕ) : Prop where
  row : ∀ st' e', s.row t = some (st', e') → e ≤ e' ∧ (st = .successful → st' = .successful ∧ e' = e)
  read : st = .successful → ∀ x, ∀ r ∈ (s.passes x).records, r.2.1 = t → r.2.2.2 ≤ e
  won : ∀ n ∈ s.nodes, n.task = t → n.outcome = some .successful →
    ∀ e', n.outcomeEpoch = some e' → e ≤ e'

structure RecordInv (s : WorkflowState) : Prop where
  rowsUsed : ∀ t, s.rows t ≠ none → t ∈ s.used
  nodeUsed : ∀ n ∈ s.nodes, n.task ∈ s.used
  node : ∀ n ∈ s.nodes, ∀ n' ∈ s.nodes, n.task = n'.task → n = n'
  epochs : ∀ n ∈ s.nodes, ∀ e, n.outcomeEpoch = some e →
    ∀ st' e', s.row n.task = some (st', e') → e ≤ e'
  won : ∀ n ∈ s.nodes, n.outcome = some .successful → ∃ e, n.outcomeEpoch = some e ∧
    (∀ st' e', s.row n.task = some (st', e') → st' = .successful ∧ e' = e) ∧
      ∀ x, ∀ r ∈ (s.passes x).records, r.2.1 = n.task → r.2.2.2 ≤ e
  readUsed : ∀ x, ∀ r ∈ (s.passes x).records, r.2.1 ∈ s.used
  read : ∀ x, ∀ r ∈ (s.passes x).records, ∀ st' e', s.row r.2.1 = some (st', e') →
    r.2.2.2 ≤ e' ∧ (r.2.2.1 = .successful → st' = .successful ∧ e' = r.2.2.2)
  latest : ∀ x, ∀ r ∈ (s.passes x).records, r.2.2.1 = .successful →
    ∀ y, ∀ r' ∈ (s.passes y).records, r'.2.1 = r.2.1 → r'.2.2.2 ≤ r.2.2.2

theorem RecordInv.fits_read (hi : s.RecordInv) {r : ℕ × TaskId × Status × ℕ}
    (hr : r ∈ (s.passes x).records) : s.Fits r.2.1 r.2.2.1 r.2.2.2 where
  row st' e' h := hi.read x r hr st' e' h
  read hst y r' hr' htask := hi.latest x r hr hst y r' hr' htask
  won n hn htask hout e' he := by
    obtain ⟨E, hE, -, hle⟩ := hi.won n hn hout
    obtain rfl : E = e' := Option.some.inj (hE.symm.trans he)
    exact hle x r hr htask.symm

theorem RecordInv.fits_row (hi : s.RecordInv) {st : Status} {e : ℕ}
    (hr : s.row t = some (st, e)) : s.Fits t st e where
  row st' e' h := by
    obtain ⟨rfl, rfl⟩ : st = st' ∧ e = e' := by simpa using hr.symm.trans h
    exact ⟨le_rfl, fun h => ⟨h, rfl⟩⟩
  read _ x r hr' htask := (hi.read x r hr' st e (htask ▸ hr)).1
  won n hn htask hout e' he := by
    obtain ⟨E, hE, hrow, -⟩ := hi.won n hn hout
    obtain rfl : E = e' := Option.some.inj (hE.symm.trans he)
    exact (hrow st e (htask ▸ hr)).2.le

/-- A step that touches no row and no node, and reads no record but off a row. -/
theorem RecordInv.of_eq (hi : s.RecordInv) (hr : s'.rows = s.rows)
    (hn : s'.nodes = s.nodes) (hu : s'.used = s.used)
    (hp : ∀ x, ∀ r ∈ (s'.passes x).records, r ∈ (s.passes x).records ∨
      s.row r.2.1 = some (r.2.2.1, r.2.2.2)) : s'.RecordInv := by
  have hrow : ∀ t, s'.row t = s.row t := by simp [row, hr]
  have hfits : ∀ x, ∀ r ∈ (s'.passes x).records, s.Fits r.2.1 r.2.2.1 r.2.2.2 := by
    intro x r hr'
    rcases hp x r hr' with h | h
    · exact hi.fits_read h
    · exact hi.fits_row h
  refine ⟨?_, ?_, ?_, ?_, ?_, ?_, ?_, ?_⟩
  · simpa only [hr, hu] using hi.rowsUsed
  · simpa only [hn, hu] using hi.nodeUsed
  · simpa only [hn] using hi.node
  · simpa only [hn, hrow] using hi.epochs
  · intro n hn' hout
    rw [hn] at hn'
    obtain ⟨e, he, hlast, -⟩ := hi.won n hn' hout
    refine ⟨e, he, fun st' e' h => hlast st' e' (hrow _ ▸ h), fun y r hr' htask => ?_⟩
    exact (hfits y r hr').won n hn' htask.symm hout e he
  · intro y r hr'
    rw [hu]
    rcases hp y r hr' with h | h
    · exact hi.readUsed y r h
    · refine hi.rowsUsed _ fun hnone => ?_
      simp [row, hnone] at h
  · intro y r hr' st' e' h
    exact (hfits y r hr').row st' e' (hrow _ ▸ h)
  · intro y r hr' hst z r' hr'' htask
    rcases hp z r' hr'' with h | h
    · exact (hfits y r hr').read hst z r' h htask
    · have := (hfits y r hr').row _ _ (htask ▸ h)
      exact (this.2 hst).2.le

theorem RecordInv.setPass (hi : s.RecordInv)
    (hp : ∀ r ∈ p.records, r ∈ (s.passes x).records ∨ s.row r.2.1 = some (r.2.2.1, r.2.2.2)) :
    (s.setPass x p).RecordInv := by
  refine hi.of_eq rfl rfl rfl fun y r hr => ?_
  rw [passes_setPass] at hr
  split_ifs at hr with h
  · exact h ▸ hp r hr
  · exact .inl hr

/-- A pass that has no record to write. -/
theorem RecordInv.unread (hi : s.RecordInv) (hp : p.records = []) : (s.setPass x p).RecordInv :=
  hi.setPass (by simp [hp])

/-- A row moves by a step that is no revival. -/
theorem RecordInv.putRow (hi : s.RecordInv) {r r' : RowState} {a : RowAction}
    (hr : s.rows t = some r) (ha : r.step a = some r') (hrev : a.IsRevive = false) :
    (s.putRow t r').RecordInv := by
  have hold : s.row t = some (r.row.status, r.row.leaseEpoch) := by simp [row, hr]
  have hle : r.row.leaseEpoch ≤ r'.row.leaseEpoch := RowState.step_leaseEpoch_le ha
  -- a success that was the row's last word still is
  have hlast : ∀ u e, (∀ st' e', s.row u = some (st', e') → st' = .successful ∧ e' = e) →
      ∀ st' e', (s.putRow t r').row u = some (st', e') → st' = .successful ∧ e' = e := by
    intro u e h st' e' hu
    rw [row_putRow] at hu
    split_ifs at hu with heq
    · subst heq
      obtain ⟨hst, he⟩ := h _ _ hold
      have hsame : r'.row = r.row := RowState.step_successful hrev ha hst
      rw [hsame] at hu
      obtain ⟨rfl, rfl⟩ : r.row.status = st' ∧ r.row.leaseEpoch = e' := by simpa using hu
      exact ⟨hst, he⟩
    · exact h st' e' hu
  have hmono : ∀ u e, (∀ st' e', s.row u = some (st', e') → e ≤ e') →
      ∀ st' e', (s.putRow t r').row u = some (st', e') → e ≤ e' := by
    intro u e h st' e' hu
    rw [row_putRow] at hu
    split_ifs at hu with heq
    · subst heq
      have := h _ _ hold
      obtain ⟨rfl, rfl⟩ : r'.row.status = st' ∧ r'.row.leaseEpoch = e' := by simpa using hu
      omega
    · exact h st' e' hu
  refine ⟨fun u hu => ?_, hi.nodeUsed, hi.node, fun n hn e he => ?_, fun n hn hout => ?_,
    hi.readUsed, fun y q hq st' e' h => ⟨?_, fun hst => ?_⟩, hi.latest⟩
  · by_cases he : u = t
    · exact he ▸ hi.rowsUsed t (by simp [hr])
    · rw [rows_putRow, if_neg he] at hu
      exact hi.rowsUsed u hu
  · exact hmono _ e (hi.epochs n hn e he)
  · obtain ⟨e, he, hrow, hread⟩ := hi.won n hn hout
    exact ⟨e, he, hlast _ e hrow, hread⟩
  · exact hmono _ _ (fun st' e' h => (hi.read y q hq st' e' h).1) st' e' h
  · exact hlast _ _ (fun st' e' h => (hi.read y q hq st' e' h).2 hst) st' e' h

theorem RecordInv.prune (hi : s.RecordInv) :
    RecordInv { s with rows := Function.update s.rows t none } := by
  have hrow : ∀ u y, row { s with rows := Function.update s.rows t none } u = some y →
      s.row u = some y := by
    intro u y h
    by_cases he : u = t <;> simp [row, he] at h
    simpa [row] using h
  refine ⟨fun u hu => ?_, hi.nodeUsed, hi.node, fun n hn e he st' e' h => ?_,
    fun n hn hout => ?_, hi.readUsed, fun y r hr st' e' h => ?_, hi.latest⟩
  · apply hi.rowsUsed u
    by_cases he : u = t <;> simp [he] at hu
    exact hu
  · exact hi.epochs n hn e he st' e' (hrow _ _ h)
  · obtain ⟨e, he, hlast, hread⟩ := hi.won n hn hout
    exact ⟨e, he, fun st' e' h => hlast st' e' (hrow _ _ h), hread⟩
  · exact hi.read y r hr st' e' (hrow _ _ h)

/-- A record that is not newer than a recorded success is not taken. -/
theorem record_of_won {n : OxpullWorkflowNode} {st : Status} {e e' : ℕ}
    (hout : n.outcome = some .successful) (he : n.outcomeEpoch = some e') (hle : e ≤ e') :
    n.record st e = n := by
  unfold OxpullWorkflowNode.record
  rw [if_neg]
  unfold recordTakes
  simp only [he, hout]
  simp
  omega

/-- A record that fits leaves a recorded success. -/
theorem RecordInv.record_keeps (hi : s.RecordInv) {n : OxpullWorkflowNode} {st : Status} {e : ℕ}
    (hn : n ∈ s.nodes) (hf : s.Fits n.task st e) (hout : n.outcome = some .successful) :
    n.record st e = n := by
  obtain ⟨e', he', -⟩ := hi.won n hn hout
  exact record_of_won hout he' (hf.won n hn rfl hout e' he')

/-- Records are written that fit. -/
theorem RecordInv.renode (hi : s.RecordInv) {f : OxpullWorkflowNode → OxpullWorkflowNode}
    (hf : ∀ n ∈ s.nodes, f n = n ∨ ∃ st e, f n = n.record st e ∧ s.Fits n.task st e) :
    RecordInv { s with nodes := s.nodes.map f } := by
  have htask : ∀ n ∈ s.nodes, (f n).task = n.task := by
    intro n hn
    rcases hf n hn with h | ⟨st, e, h, -⟩ <;> simp [h]
  refine ⟨hi.rowsUsed, fun n' hn' => ?_, fun n' hn' m' hm' h => ?_, fun n' hn' e' he' => ?_, fun n' hn' hout => ?_,
    hi.readUsed, hi.read, hi.latest⟩
  · obtain ⟨n, hn, rfl⟩ := List.mem_map.mp hn'
    rw [htask n hn]
    exact hi.nodeUsed n hn
  · obtain ⟨n, hn, rfl⟩ := List.mem_map.mp hn'
    obtain ⟨m, hm, rfl⟩ := List.mem_map.mp hm'
    rw [htask n hn, htask m hm] at h
    rw [hi.node n hn m hm h]
  · obtain ⟨n, hn, rfl⟩ := List.mem_map.mp hn'
    rw [htask n hn]
    rcases hf n hn with h | ⟨st, e, h, hfit⟩
    · rw [h] at he'
      exact hi.epochs n hn e' he'
    · intro st' e₀ hrow
      rw [h] at he'
      unfold OxpullWorkflowNode.record at he'
      split_ifs at he'
      · obtain rfl := Option.some.inj he'
        exact (hfit.row st' e₀ hrow).1
      · exact hi.epochs n hn e' he' st' e₀ hrow
  · obtain ⟨n, hn, rfl⟩ := List.mem_map.mp hn'
    rw [htask n hn]
    rcases hf n hn with h | ⟨st, e, h, hfit⟩
    · rw [h] at hout ⊢
      exact hi.won n hn hout
    · by_cases hwon : n.outcome = some .successful
      · rw [h, hi.record_keeps hn hfit hwon]
        exact hi.won n hn hwon
      · rw [h] at hout ⊢
        unfold OxpullWorkflowNode.record at hout ⊢
        split_ifs at hout ⊢
        · obtain rfl := Option.some.inj hout
          exact ⟨e, rfl, fun st' e' hrow => (hfit.row st' e' hrow).2 rfl,
            fun x r hr ht => hfit.read rfl x r hr ht⟩
        · exact absurd hout hwon

theorem RecordInv.recordNode (hi : s.RecordInv) {st : Status} {e : ℕ} (hf : s.Fits t st e) :
    (s.recordNode t st e).RecordInv := by
  refine hi.renode fun n _ => ?_
  split_ifs with h
  · exact .inr ⟨st, e, rfl, h ▸ hf⟩
  · exact .inl rfl

theorem RecordInv.recordMany (hi : s.RecordInv) {records : List (ℕ × TaskId × Status × ℕ)}
    (hr : ∀ r ∈ records, s.Fits r.2.1 r.2.2.1 r.2.2.2 ∧ ∀ n ∈ s.nodes, n.pk = r.1 → n.task = r.2.1) :
    RecordInv { s with nodes := DjangoOx.recordMany s.nodes (records.map recordFields) } := by
  obtain ⟨f, hmap, hf⟩ := exists_recordMany s.nodes (records.map recordFields)
  rw [hmap]
  refine hi.renode fun n hn => ?_
  rcases hf n with h | ⟨st, e, hmem, h⟩
  · exact .inl h
  · obtain ⟨r, hr', heq⟩ := List.mem_map.mp hmem
    obtain ⟨hpk, rfl, rfl⟩ : r.1 = n.pk ∧ r.2.2.1 = st ∧ r.2.2.2 = e := by
      simpa [recordFields, Prod.ext_iff] using heq
    obtain ⟨hfit, htask⟩ := hr r hr'
    exact .inr ⟨_, _, h, (htask n hn hpk.symm) ▸ hfit⟩

theorem RecordInv.mark (hi : s.RecordInv) (edges : List OxpullWorkflowEdge) :
    RecordInv { s with edges := edges } :=
  hi.of_eq rfl rfl rfl fun _ _ h => .inl h

theorem RecordInv.recordNodeOutcome (hi : s.RecordInv) {st : Status} {e : ℕ}
    (hr : s.row t = some (st, e)) : (s.recordNodeOutcome t st e).RecordInv := by
  unfold WorkflowState.recordNodeOutcome
  have hrec := hi.recordNode (hi.fits_row hr)
  split_ifs
  · exact hrec.mark _
  · exact hrec
  · exact hi

/-- Nodes are deleted. -/
theorem RecordInv.drop (hi : s.RecordInv) {nodes : List OxpullWorkflowNode}
    (hn : nodes ⊆ s.nodes) : RecordInv { s with nodes := nodes } :=
  ⟨hi.rowsUsed, fun n h => hi.nodeUsed n (hn h), fun n h n' h' => hi.node n (hn h) n' (hn h'),
    fun n h => hi.epochs n (hn h), fun n h => hi.won n (hn h), hi.readUsed, hi.read, hi.latest⟩

theorem RecordInv.retire (hi : s.RecordInv) (w : ℕ) (chunk : List (ℕ × TaskId × Option Status)) :
    (s.retire w chunk).RecordInv :=
  (hi.drop fun _ h => (List.mem_filter.mp h).1).mark _

theorem RecordInv.updateMany (hi : s.RecordInv) {pairs : List (TaskId × ℕ)} {a : ℕ → RowAction}
    (hrev : ∀ e, (a e).IsRevive = false) : (s.updateMany pairs a).RecordInv := by
  refine updateMany_induction s hi fun s' hi' q _ => ?_
  rcases update_cases s' q.1 (a q.2) with h | ⟨r, r', hr, ha, h⟩
  · rw [h]
    exact hi'
  · rw [h]
    exact hi'.putRow hr ha (hrev _)

/-- The rows that are DISCARDED take their record. -/
theorem RecordInv.recordDiscarded (hi : s.RecordInv) (pairs : List (TaskId × ℕ)) :
    (s.recordDiscarded pairs).RecordInv := by
  have h : (s.recordDiscarded pairs).RecordInv ∧ (s.recordDiscarded pairs).rows = s.rows := by
    refine recordDiscarded_induction (P := fun s' => s'.RecordInv ∧ s'.rows = s.rows) s ⟨hi, rfl⟩ ?_
    rintro s' ⟨hi', hrows⟩ t e hrow
    refine ⟨hi'.recordNode (hi'.fits_row ?_), hrows⟩
    unfold row
    rw [hrows]
    exact hrow
  exact h.1

theorem RecordInv.insertNode (hi : s.RecordInv) {w : ℕ} {f : OxpullWorkflow} {name : String}
    {task : TaskId} {new : OxTask} {upstream won : List TaskId} (hnew : task ∉ s.used) :
    (s.insertNode w f name task new upstream won).RecordInv := by
  have hrow : ∀ u ∈ s.used, (s.insertNode w f name task new upstream won).row u = s.row u := by
    intro u hu
    have hne : u ≠ task := fun h => hnew (h ▸ hu)
    exact (row_putRow s task u _).trans (if_neg hne)
  have hmem : ∀ n, n ∈ (s.insertNode w f name task new upstream won).nodes ↔
      n ∈ s.nodes ∨ n = ⟨s.nextNode, w, name, task, none, none, false⟩ := fun n => by
    exact List.mem_append.trans (or_congr_right List.mem_singleton)
  have hfresh : ∀ n ∈ s.nodes, n.task ≠ task := fun n hn h => hnew (h ▸ hi.nodeUsed n hn)
  refine ⟨fun u hu => ?_, fun n hn => ?_, fun n hn n' hn' h => ?_, fun n hn e he st' e' h => ?_,
    fun n hn hout => ?_, fun y r hr => List.mem_cons_of_mem _ (hi.readUsed y r hr),
    fun y r hr st' e' h => ?_, hi.latest⟩
  · by_cases hu' : u = task
    · exact hu' ▸ List.mem_cons_self
    · refine List.mem_cons_of_mem _ (hi.rowsUsed u ?_)
      have hsame : (s.insertNode w f name task new upstream won).rows u = s.rows u :=
        (rows_putRow s task u _).trans (if_neg hu')
      exact hsame ▸ hu
  · rcases (hmem n).mp hn with hold | rfl
    · exact List.mem_cons_of_mem _ (hi.nodeUsed n hold)
    · exact List.mem_cons_self
  · rcases (hmem n).mp hn with hold | rfl <;> rcases (hmem n').mp hn' with hold' | rfl
    · exact hi.node n hold n' hold' h
    · exact absurd h (hfresh n hold)
    · exact absurd h.symm (hfresh n' hold')
    · rfl
  · rcases (hmem n).mp hn with hold | rfl
    · rw [hrow _ (hi.nodeUsed n hold)] at h
      exact hi.epochs n hold e he st' e' h
    · cases he
  · rcases (hmem n).mp hn with hold | rfl
    · obtain ⟨e, he, hlast, hread⟩ := hi.won n hold hout
      refine ⟨e, he, fun st' e' h => ?_, hread⟩
      rw [hrow _ (hi.nodeUsed n hold)] at h
      exact hlast st' e' h
    · cases hout
  · rw [hrow _ (hi.readUsed y r hr)] at h
    exact hi.read y r hr st' e' h

theorem RecordInv.hold (hi : s.RecordInv) (holder : TaskId → Option ℕ) (owner : ℕ → Option ℕ) :
    RecordInv { s with holder := holder, owner := owner } :=
  hi.of_eq rfl rfl rfl fun _ _ h => .inl h

theorem record_of_start (h : s.Start) : s.RecordInv := by
  obtain ⟨-, -, -, hr, hn, -, -, -, hp, -, -, -, -⟩ := h
  refine ⟨by simp [hr], by simp [hn], by simp [hn], by simp [hn], by simp [hn], ?_, ?_, ?_⟩ <;>
    simp [hp, WorkflowPass.records]

theorem step_record {a : WorkflowAction} (ho : s.OrderInv) (hi : s.RecordInv)
    (h : step s a = some s') : s'.RecordInv := by
  cases a with
  | claim u a | row u a =>
    obtain ⟨⟨hkind, -⟩, h⟩ := Option.ite_none_right_eq_some.mp h
    obtain ⟨r', hb, rfl⟩ := Option.map_eq_some_iff.mp h
    obtain ⟨r, hr, ha⟩ := Option.bind_eq_some_iff.mp hb
    refine hi.putRow hr ha ?_
    cases a <;> first | rfl | cases hkind
  | outcome u b held now ending =>
    obtain ⟨-, h⟩ := Option.ite_none_right_eq_some.mp h
    obtain ⟨r', hb, rfl⟩ := Option.map_eq_some_iff.mp h
    obtain ⟨r, hr, ha⟩ := Option.bind_eq_some_iff.mp hb
    have hput := hi.putRow hr ha rfl
    split_ifs
    · apply hput.recordNodeOutcome
      rw [row_putRow, if_pos rfl]
    · exact hput
  | commitAdd x task call inherited now =>
    simp only [step] at h
    split at h
    · split at h
      · obtain ⟨⟨-, hnew, -⟩, h⟩ := Option.ite_none_right_eq_some.mp h
        obtain rfl := Option.some.inj h
        exact (hi.insertNode hnew).unread rfl
      · cases h
    · cases h
  | pruneTask u =>
    simp only [step] at h
    split at h
    · obtain ⟨-, h⟩ := Option.ite_none_right_eq_some.mp h
      obtain rfl := Option.some.inj h
      exact hi.prune
    · cases h
  | markProven x locked =>
    simp only [step] at h
    split at h
    · obtain rfl := Option.some.inj h
      exact RecordInv.mark (hi.unread rfl) _
    · cases h
  | readRepairs x w =>
    simp only [step] at h
    split at h
    · obtain rfl := Option.some.inj h
      refine hi.setPass fun r hr => .inr ?_
      obtain ⟨n, -, hmap⟩ := List.mem_filterMap.mp hr
      obtain ⟨⟨st, e⟩, hrow, rfl⟩ := Option.map_eq_some_iff.mp hmap
      exact hrow
    · cases h
  | commitRepairs x =>
    simp only [step] at h
    split at h
    · next records hx =>
      obtain rfl := Option.some.inj h
      have hok : s.PassOk (.repairing records) := hx ▸ ho.passes x
      have hmem : ∀ r ∈ records, r ∈ (s.passes x).records := by
        rw [hx]
        exact fun r hr => hr
      have hrec := hi.recordMany fun r hr => ⟨hi.fits_read (hmem r hr), (hok r hr).2.1⟩
      exact RecordInv.mark (hrec.unread (x := x) (p := .idle) rfl) _
    · cases h
  | readNodeRows x size =>
    simp only [step] at h
    split at h
    · next nodes records hx =>
      obtain rfl := Option.some.inj h
      refine hi.setPass fun r hr => ?_
      rcases List.mem_append.mp hr with hr | hr
      · left
        rw [hx]
        exact hr
      · right
        obtain ⟨n, -, hw⟩ := List.mem_filterMap.mp hr
        unfold wantedRecord at hw
        split at hw
        · next st e hrow =>
          obtain ⟨-, hw⟩ := Option.ite_none_right_eq_some.mp hw
          obtain rfl := Option.some.inj hw
          exact hrow
        · cases hw
    · cases h
  | writeRecords x locked =>
    simp only [step] at h
    split at h
    · next records hx =>
      obtain rfl := Option.some.inj h
      have hok : s.PassOk (.looking [] records) := hx ▸ ho.passes x
      have hmem : ∀ r ∈ records, r ∈ (s.passes x).records := by
        rw [hx]
        exact fun r hr => hr
      have hfits : ∀ r ∈ records.filter (·.1 ∈ locked), s.Fits r.2.1 r.2.2.1 r.2.2.2 ∧
          ∀ n ∈ s.nodes, n.pk = r.1 → n.task = r.2.1 := by
        intro r hr
        have hr' := (List.mem_filter.mp hr).1
        exact ⟨hi.fits_read (hmem r hr'), (hok.2 r hr').2.1⟩
      have hrec := hi.recordMany hfits
      exact hrec.unread (x := x) (p := .idle) rfl
    · cases h
  | releaseMany x now =>
    simp only [step] at h
    split at h
    · obtain ⟨-, h⟩ := Option.ite_none_right_eq_some.mp h
      obtain rfl := Option.some.inj h
      exact (hi.updateMany fun _ => rfl).unread rfl
    · cases h
  | cancelMany x now =>
    simp only [step] at h
    split at h
    · next w doomed pairs hx =>
      obtain ⟨-, h⟩ := Option.ite_none_right_eq_some.mp h
      obtain rfl := Option.some.inj h
      have hmany : (s.updateMany pairs fun e => .cancelMany e now).RecordInv :=
        hi.updateMany fun _ => rfl
      apply RecordInv.hold
      refine RecordInv.unread ?_ (p := .idle) rfl
      split_ifs
      · exact hmany
      · exact hmany.recordDiscarded pairs
    · cases h
  | readCancellable x w =>
    simp only [step] at h
    split at h
    · obtain ⟨-, h⟩ := Option.ite_none_right_eq_some.mp h
      obtain rfl := Option.some.inj h
      apply RecordInv.hold
      exact hi.unread rfl
    · cases h
  | lockDoomed x =>
    simp only [step] at h
    split at h
    · split at h
      · obtain rfl := Option.some.inj h
        exact hi.unread rfl
      · obtain ⟨-, h⟩ := Option.ite_none_right_eq_some.mp h
        obtain rfl := Option.some.inj h
        apply RecordInv.hold
        exact hi.unread rfl
    · cases h
  | retireChunk x =>
    simp only [step] at h
    split at h
    · next w c chunk hx =>
      obtain ⟨-, h⟩ := Option.ite_none_right_eq_some.mp h
      obtain rfl := Option.some.inj h
      exact (hi.retire w (c :: chunk)).unread rfl
    · cases h
  | abort x =>
    obtain rfl := Option.some.inj h
    apply RecordInv.hold
    exact hi.unread rfl
  | create w | sealOnce w | complete w | stamp w | clear w =>
    simp only [step] at h
    repeat' split at h
    all_goals cases h
    all_goals exact hi.of_eq rfl rfl rfl fun _ _ h => .inl h
  | _ =>
    simp only [step] at h
    repeat' split at h
    all_goals cases h
    all_goals exact hi.unread rfl

theorem reachable_record (h : workflowSystem.Reachable s) : s.OrderInv ∧ s.RecordInv :=
  h.invariant (fun s => s.OrderInv ∧ s.RecordInv)
    (fun _ hs => ⟨order_of_start hs, record_of_start hs⟩)
    fun _ _ _ hi hs => ⟨step_order hi.1 hs, step_record hi.1 hi.2 hs⟩

end WorkflowState

end DjangoOx
