import DjangoOx.Workflow.Records

/-! Where every outcome is recorded with its row, the record of a node says what became of it. -/
namespace DjangoOx

open Machine

/-- An outcome that is written without the node's record. -/
def WorkflowAction.WritesPlain : WorkflowAction → Bool
  | .row _ (.writeOutcome _ _ _ _) => true
  | _ => false

namespace WorkflowState

variable {s s' : WorkflowState} {x : ℕ} {t u : TaskId} {p : WorkflowPass}

structure LastInv (s : WorkflowState) : Prop where
  wonUsed : ∀ t ∈ s.succeeded, t ∈ s.used
  final : ∀ t ∈ s.succeeded, ∀ st, s.status t = some st → st = .successful
  recorded : ∀ n ∈ s.nodes, n.task ∈ s.succeeded → n.outcome = some .successful
  settled : ∀ n ∈ s.nodes, ∀ st, n.outcome = some st → st.Settled
  /-- At the epoch of a row that may still be answered, only LOST is on record. -/
  answerable : ∀ n ∈ s.nodes, ∀ st e, s.row n.task = some (st, e) → st.Writable →
    n.outcomeEpoch = some e → n.outcome = none ∨ n.outcome = some .lost
  readSettled : ∀ x, ∀ r ∈ (s.passes x).records, r.2.2.1.Settled
  readAnswerable : ∀ x, ∀ r ∈ (s.passes x).records, ∀ st, s.row r.2.1 = some (st, r.2.2.2) →
    st.Writable → r.2.2.1 = .lost

/-- The record may be written, and says no more than what became of the row. -/
structure Says (s : WorkflowState) (t : TaskId) (st : Status) (e : ℕ) : Prop where
  fits : s.Fits t st e
  settled : st.Settled
  answerable : ∀ st', s.row t = some (st', e) → st'.Writable → st = .lost

theorem LastInv.says_read (hi : s.LastInv) (hr : s.RecordInv) {r : ℕ × TaskId × Status × ℕ}
    (h : r ∈ (s.passes x).records) : s.Says r.2.1 r.2.2.1 r.2.2.2 :=
  ⟨hr.fits_read h, hi.readSettled x r h, fun st' hrow hw => hi.readAnswerable x r h st' hrow hw⟩

theorem says_row (hr : s.RecordInv) {st : Status} {e : ℕ} (h : s.row t = some (st, e))
    (hst : st.Settled) : s.Says t st e := by
  refine ⟨hr.fits_row h, hst, fun st' hrow hw => ?_⟩
  obtain rfl : st = st' := by simpa using h.symm.trans hrow
  rcases hst with rfl | rfl | rfl | rfl <;> simp [Status.Writable] at hw ⊢

/-- A step that touches no row and no node, and reads no record but off a settled row. -/
theorem LastInv.of_eq (hi : s.LastInv) (hr : s'.rows = s.rows) (hn : s'.nodes = s.nodes)
    (hu : s'.used = s.used) (hs : s'.succeeded = s.succeeded)
    (hp : ∀ x, ∀ r ∈ (s'.passes x).records, r ∈ (s.passes x).records ∨
      s.row r.2.1 = some (r.2.2.1, r.2.2.2) ∧ r.2.2.1.Settled) : s'.LastInv := by
  have hrow : ∀ t, s'.row t = s.row t := by simp [row, hr]
  have hst : ∀ t, s'.status t = s.status t := by simp [status, hr]
  refine ⟨?_, ?_, ?_, ?_, ?_, fun x r h => ?_, fun x r h st hrow' hw => ?_⟩
  · simpa only [hs, hu] using hi.wonUsed
  · simpa only [hs, hst] using hi.final
  · simpa only [hs, hn] using hi.recorded
  · simpa only [hn] using hi.settled
  · simpa only [hn, hrow] using hi.answerable
  · rcases hp x r h with h | ⟨-, h⟩
    · exact hi.readSettled x r h
    · exact h
  · rw [hrow] at hrow'
    rcases hp x r h with h | ⟨hold, hset⟩
    · exact hi.readAnswerable x r h st hrow' hw
    · obtain rfl : r.2.2.1 = st :=
        (Prod.mk.inj (Option.some.inj (hold.symm.trans hrow'))).1
      rcases hset with h | h | h | h <;> simp [h, Status.Writable] at hw ⊢

theorem LastInv.setPass (hi : s.LastInv)
    (hp : ∀ r ∈ p.records, r ∈ (s.passes x).records ∨
      s.row r.2.1 = some (r.2.2.1, r.2.2.2) ∧ r.2.2.1.Settled) : (s.setPass x p).LastInv := by
  refine hi.of_eq rfl rfl rfl rfl fun y r hr => ?_
  rw [passes_setPass] at hr
  split_ifs at hr with h
  · exact h ▸ hp r hr
  · exact .inl hr

theorem LastInv.unread (hi : s.LastInv) (hp : p.records = []) : (s.setPass x p).LastInv :=
  hi.setPass (by simp [hp])

theorem LastInv.hold (hi : s.LastInv) (holder : TaskId → Option ℕ) (owner : ℕ → Option ℕ) :
    LastInv { s with holder := holder, owner := owner } :=
  hi.of_eq rfl rfl rfl rfl fun _ _ h => .inl h

theorem LastInv.mark (hi : s.LastInv) (edges : List OxpullWorkflowEdge) :
    LastInv { s with edges := edges } :=
  hi.of_eq rfl rfl rfl rfl fun _ _ h => .inl h

/-- A row moves, its success not counted yet. -/
theorem LastInv.write (hi : s.LastInv) (hr : s.RecordInv) {r r' : RowState} {a : RowAction}
    (hrow : s.rows t = some r) (ha : r.step a = some r') (hrev : a.IsRevive = false) :
    LastInv { s with rows := Function.update s.rows t (some r') } := by
  have hold : s.row t = some (r.row.status, r.row.leaseEpoch) := by simp [row, hrow]
  have hrow' : ∀ u, row { s with rows := Function.update s.rows t (some r') } u =
      if u = t then some (r'.row.status, r'.row.leaseEpoch) else s.row u :=
    fun u => row_putRow s t u r'
  have hst : ∀ u, status { s with rows := Function.update s.rows t (some r') } u =
      if u = t then some r'.row.status else s.status u :=
    fun u => status_putRow s t u r'
  -- a row that may still be answered had the same epoch, or its epoch is new
  have hopen : ∀ u st e, row { s with rows := Function.update s.rows t (some r') } u = some (st, e) →
      st.Writable → (∃ st₀, s.row u = some (st₀, e) ∧ st₀.Writable) ∨
        u = t ∧ r.row.leaseEpoch < e := by
    intro u st e h hw
    rw [hrow'] at h
    split_ifs at h with he
    · obtain ⟨rfl, rfl⟩ : r'.row.status = st ∧ r'.row.leaseEpoch = e := by simpa using h
      rcases RowState.step_writable ha hw with ⟨hw', hsame⟩ | hlt
      · exact .inl ⟨r.row.status, by rw [he, hold, hsame], hw'⟩
      · exact .inr ⟨he, hlt⟩
    · exact .inl ⟨st, h, hw⟩
  refine ⟨hi.wonUsed, fun u hu st h => ?_, hi.recorded, hi.settled, fun n hn st e h hw he => ?_,
    hi.readSettled, fun y q hq st h hw => ?_⟩
  · rw [hst] at h
    split_ifs at h with he
    · have hwon : r.row.status = .successful :=
        hi.final u hu _ (by rw [he]; simp [status, hrow])
      obtain rfl := Option.some.inj h
      rw [RowState.step_successful hrev ha hwon]
      exact hwon
    · exact hi.final u hu st h
  · rcases hopen _ st e h hw with ⟨st₀, hrow₀, hw₀⟩ | ⟨htask, hlt⟩
    · exact hi.answerable n hn st₀ e hrow₀ hw₀ he
    · have := hr.epochs n hn e he _ _ (htask ▸ hold)
      omega
  · rcases hopen _ st _ h hw with ⟨st₀, hrow₀, hw₀⟩ | ⟨htask, hlt⟩
    · exact hi.readAnswerable y q hq st₀ hrow₀ hw₀
    · have := (hr.read y q hq _ _ (htask ▸ hold)).1
      omega

/-- A success is counted that is on record. -/
theorem LastInv.win (hi : s.LastInv) (hu : t ∈ s.used)
    (hst : ∀ st, s.status t = some st → st = .successful)
    (hn : ∀ n ∈ s.nodes, n.task = t → n.outcome = some .successful) :
    LastInv { s with succeeded := t :: s.succeeded } := by
  refine ⟨fun u h => ?_, fun u h st hs => ?_, fun n hmem h => ?_, hi.settled, hi.answerable,
    hi.readSettled, hi.readAnswerable⟩
  · rcases List.mem_cons.mp h with rfl | h
    · exact hu
    · exact hi.wonUsed u h
  · rcases List.mem_cons.mp h with rfl | h
    · exact hst st hs
    · exact hi.final u h st hs
  · rcases List.mem_cons.mp h with h | h
    · exact hn n hmem h
    · exact hi.recorded n hmem h

/-- A row moves, and is not SUCCESSFUL now if it was not before. -/
theorem LastInv.putRow (hi : s.LastInv) (hr : s.RecordInv) {r r' : RowState} {a : RowAction}
    (hrow : s.rows t = some r) (ha : r.step a = some r') (hrev : a.IsRevive = false)
    (hwon : r'.row.status = .successful → t ∈ s.succeeded) : (s.putRow t r').LastInv := by
  have hwrite := hi.write hr hrow ha hrev
  unfold WorkflowState.putRow
  split_ifs with hst
  · refine hwrite.win (hi.wonUsed t (hwon hst)) (fun st h => ?_) fun n hn ht => ?_
    · simp only [status, Function.update_self, Option.map_some, Option.some.injEq] at h
      exact h.symm.trans hst
    · exact hi.recorded n hn (ht ▸ hwon hst)
  · exact hwrite

theorem LastInv.prune (hi : s.LastInv) :
    LastInv { s with rows := Function.update s.rows t none } := by
  have hrow : ∀ u y, row { s with rows := Function.update s.rows t none } u = some y →
      s.row u = some y := by
    intro u y h
    by_cases he : u = t <;> simp [row, he] at h
    simpa [row] using h
  have hst : ∀ u st, status { s with rows := Function.update s.rows t none } u = some st →
      s.status u = some st := by
    intro u st h
    by_cases he : u = t <;> simp [status, he] at h
    simpa [status] using h
  exact ⟨hi.wonUsed, fun u hu st h => hi.final u hu st (hst u st h), hi.recorded, hi.settled,
    fun n hn st e h => hi.answerable n hn st e (hrow _ _ h), hi.readSettled,
    fun y r hr st h => hi.readAnswerable y r hr st (hrow _ _ h)⟩

/-- Records are written that say what became of their rows. -/
theorem LastInv.renode (hi : s.LastInv) (hr : s.RecordInv)
    {f : OxpullWorkflowNode → OxpullWorkflowNode}
    (hf : ∀ n ∈ s.nodes, f n = n ∨ ∃ st e, f n = n.record st e ∧ s.Says n.task st e) :
    LastInv { s with nodes := s.nodes.map f } := by
  have htask : ∀ n ∈ s.nodes, (f n).task = n.task := by
    intro n hn
    rcases hf n hn with h | ⟨st, e, h, -⟩ <;> simp [h]
  refine ⟨hi.wonUsed, hi.final, fun n' hn' hu => ?_, fun n' hn' st' h => ?_,
    fun n' hn' st' e' hrow hw he => ?_, hi.readSettled, hi.readAnswerable⟩
  · obtain ⟨n, hn, rfl⟩ := List.mem_map.mp hn'
    rw [htask n hn] at hu
    have hout := hi.recorded n hn hu
    rcases hf n hn with h | ⟨st, e, h, hsaid⟩
    · rw [h]
      exact hout
    · rw [h, hr.record_keeps hn hsaid.fits hout]
      exact hout
  · obtain ⟨n, hn, rfl⟩ := List.mem_map.mp hn'
    rcases hf n hn with hsame | ⟨st, e, hrec, hsaid⟩
    · rw [hsame] at h
      exact hi.settled n hn st' h
    · rw [hrec] at h
      rcases n.record_outcome st e with hnew | hnew
      · obtain rfl : st = st' := Option.some.inj (hnew.symm.trans h)
        exact hsaid.settled
      · rw [hnew] at h
        exact hi.settled n hn st' h
  · obtain ⟨n, hn, rfl⟩ := List.mem_map.mp hn'
    rw [htask n hn] at hrow
    rcases hf n hn with hsame | ⟨st, e, hrec, hsaid⟩
    · rw [hsame] at he ⊢
      exact hi.answerable n hn st' e' hrow hw he
    · rw [hrec] at he ⊢
      unfold OxpullWorkflowNode.record at he ⊢
      split_ifs at he ⊢
      · obtain rfl : e = e' := Option.some.inj he
        right
        rw [hsaid.answerable st' hrow hw]
      · exact hi.answerable n hn st' e' hrow hw he

theorem LastInv.recordNode (hi : s.LastInv) (hr : s.RecordInv) {st : Status} {e : ℕ}
    (hf : s.Says t st e) : (s.recordNode t st e).LastInv := by
  refine hi.renode hr fun n _ => ?_
  split_ifs with h
  · exact .inr ⟨st, e, rfl, h ▸ hf⟩
  · exact .inl rfl

theorem LastInv.recordMany (hi : s.LastInv) (hr : s.RecordInv)
    {records : List (ℕ × TaskId × Status × ℕ)}
    (hs : ∀ r ∈ records, s.Says r.2.1 r.2.2.1 r.2.2.2 ∧ ∀ n ∈ s.nodes, n.pk = r.1 → n.task = r.2.1) :
    LastInv { s with nodes := DjangoOx.recordMany s.nodes (records.map recordFields) } := by
  obtain ⟨f, hmap, hf⟩ := exists_recordMany s.nodes (records.map recordFields)
  rw [hmap]
  refine hi.renode hr fun n hn => ?_
  rcases hf n with h | ⟨st, e, hmem, h⟩
  · exact .inl h
  · obtain ⟨r, hr', heq⟩ := List.mem_map.mp hmem
    obtain ⟨hpk, rfl, rfl⟩ : r.1 = n.pk ∧ r.2.2.1 = st ∧ r.2.2.2 = e := by
      simpa [recordFields, Prod.ext_iff] using heq
    obtain ⟨hsaid, htask⟩ := hs r hr'
    exact .inr ⟨_, _, h, (htask n hn hpk.symm) ▸ hsaid⟩

theorem LastInv.drop (hi : s.LastInv) {nodes : List OxpullWorkflowNode} (hn : nodes ⊆ s.nodes) :
    LastInv { s with nodes := nodes } :=
  ⟨hi.wonUsed, hi.final, fun n h => hi.recorded n (hn h), fun n h => hi.settled n (hn h),
    fun n h => hi.answerable n (hn h), hi.readSettled, hi.readAnswerable⟩

theorem LastInv.updateMany (hi : s.LastInv) (hr : s.RecordInv) {pairs : List (TaskId × ℕ)}
    {a : ℕ → RowAction} (hrev : ∀ e, (a e).IsRevive = false)
    (ha : ∀ e b st, (a e).Moves b st → st ≠ .successful) : (s.updateMany pairs a).LastInv := by
  have h : (s.updateMany pairs a).LastInv ∧ (s.updateMany pairs a).RecordInv := by
    refine updateMany_induction (P := fun s' => s'.LastInv ∧ s'.RecordInv) s ⟨hi, hr⟩ ?_
    rintro s' ⟨hi', hr'⟩ q -
    rcases update_cases s' q.1 (a q.2) with h | ⟨r, r', hrow, hstep, h⟩
    · rw [h]
      exact ⟨hi', hr'⟩
    · rw [h]
      have hne : r'.row.status ≠ .successful := ha q.2 _ _ (RowState.step_moves hstep)
      exact ⟨hi'.putRow hr' hrow hstep (hrev _) fun h => absurd h hne,
        hr'.putRow hrow hstep (hrev _)⟩
  exact h.1

theorem LastInv.recordDiscarded (hi : s.LastInv) (hr : s.RecordInv) (pairs : List (TaskId × ℕ)) :
    (s.recordDiscarded pairs).LastInv := by
  have h : (s.recordDiscarded pairs).LastInv ∧ (s.recordDiscarded pairs).RecordInv ∧
      (s.recordDiscarded pairs).rows = s.rows := by
    refine recordDiscarded_induction
      (P := fun s' => s'.LastInv ∧ s'.RecordInv ∧ s'.rows = s.rows) s ⟨hi, hr, rfl⟩ ?_
    rintro s' ⟨hi', hr', hrows⟩ t e hrow
    have hrow' : s'.row t = some (.discarded, e) := by
      unfold row
      rw [hrows]
      exact hrow
    have hdead : Status.discarded.Settled := by decide
    exact ⟨hi'.recordNode hr' (says_row hr' hrow' hdead), hr'.recordNode (hr'.fits_row hrow'), hrows⟩
  exact h.1

/-- An outcome commits with its node's record, which a success is always taken into. -/
theorem LastInv.outcome (hi : s.LastInv) (hr : s.RecordInv) {r r' : RowState} {b : Backoff}
    {held : OxTask} {now : ℤ} {ending : AttemptEnd} (hrow : s.rows t = some r)
    (ha : r.step (.writeOutcome b held now ending) = some r')
    (hst : r'.row.status = .successful) :
    ((s.putRow t r').recordNodeOutcome t r'.row.status r'.row.leaseEpoch).LastInv := by
  obtain ⟨hw, hepoch⟩ := RowState.writeOutcome_successful ha hst
  have hold : s.row t = some (r.row.status, r.row.leaseEpoch) := by simp [row, hrow]
  have hused : t ∈ s.used := hr.rowsUsed t (by simp [hrow])
  have hwrite := hi.write hr hrow ha rfl
  have hput : (s.putRow t r').RecordInv := hr.putRow hrow ha rfl
  have hwriteR : RecordInv { s with rows := Function.update s.rows t (some r') } :=
    hput.of_eq rfl rfl rfl fun _ _ h => .inl h
  have hnow : row { s with rows := Function.update s.rows t (some r') } t =
      some (r'.row.status, r'.row.leaseEpoch) := (row_putRow s t t r').trans (if_pos rfl)
  have hstatus : ∀ st, status { s with rows := Function.update s.rows t (some r') } t = some st →
      st = .successful := by
    intro st h
    rw [← hst]
    exact Option.some.inj (h.symm.trans ((status_putRow s t t r').trans (if_pos rfl)))
  have hsaid := says_row hwriteR hnow (.inl hst)
  -- the record of a row that may be answered is older, or says LOST
  have htaken : ∀ n ∈ s.nodes, n.task = t →
      (n.record r'.row.status r'.row.leaseEpoch).outcome = some .successful := by
    intro n hn ht
    unfold OxpullWorkflowNode.record
    rw [if_pos, hst]
    unfold recordTakes
    cases he : n.outcomeEpoch with
    | none => trivial
    | some e =>
      have hle := hr.epochs n hn e he _ _ (ht ▸ hold)
      simp only [hepoch]
      rcases hle.lt_or_eq with hlt | heq
      · exact .inl hlt
      · refine .inr ⟨heq, ?_⟩
        have := hi.answerable n hn _ _ (ht ▸ hold) hw (heq ▸ he)
        simpa [hst] using this
  have hcount : (s.putRow t r').succeeded = t :: s.succeeded := by
    unfold WorkflowState.putRow
    simp [hst]
  unfold WorkflowState.recordNodeOutcome
  by_cases hnode : ((s.putRow t r').nodeOf t).isSome = true
  · rw [if_pos hnode, if_pos hst]
    apply LastInv.mark
    have hrec := hwrite.recordNode hwriteR hsaid
    have hwin := hrec.win (t := t) hused hstatus fun n' hn' ht => by
      obtain ⟨n, hn, rfl⟩ := List.mem_map.mp hn'
      split_ifs at ht ⊢ with h
      · exact htaken n hn h
      · exact absurd ht h
    unfold WorkflowState.putRow
    rw [if_pos hst]
    exact hwin
  · rw [if_neg hnode]
    have hwin := hwrite.win (t := t) hused hstatus fun n hn ht => by
      have hnone : s.nodes.find? (·.task = t) = none := by
        simpa [nodeOf, WorkflowState.putRow] using hnode
      have := List.find?_eq_none.mp hnone n hn
      simp [ht] at this
    unfold WorkflowState.putRow
    rw [if_pos hst]
    exact hwin

theorem LastInv.recordNodeOutcome (hi : s.LastInv) (hr : s.RecordInv) {st : Status} {e : ℕ}
    (hrow : s.row t = some (st, e)) (hst : st.Settled) :
    (s.recordNodeOutcome t st e).LastInv := by
  have hrec := hi.recordNode hr (says_row hr hrow hst)
  unfold WorkflowState.recordNodeOutcome
  split_ifs
  · exact hrec.mark _
  · exact hrec
  · exact hi

theorem LastInv.insertNode (hi : s.LastInv) (hr : s.RecordInv) {w : ℕ} {f : OxpullWorkflow}
    {name : String} {task : TaskId} {new : OxTask} {upstream won : List TaskId}
    (hnew : task ∉ s.used) (hst : new.status = .ready ∨ new.status = .waiting) :
    (s.insertNode w f name task new upstream won).LastInv := by
  have hne : ∀ u ∈ s.used, u ≠ task := fun u hu h => hnew (h ▸ hu)
  have hrow : ∀ u ∈ s.used, (s.insertNode w f name task new upstream won).row u = s.row u :=
    fun u hu => (row_putRow s task u _).trans (if_neg (hne u hu))
  have hstatus : ∀ u ∈ s.used, (s.insertNode w f name task new upstream won).status u = s.status u :=
    fun u hu => (status_putRow s task u _).trans (if_neg (hne u hu))
  have hsucc : ∀ u, u ∈ (s.insertNode w f name task new upstream won).succeeded ↔
      u ∈ s.succeeded := by
    intro u
    refine (mem_succeeded_putRow s task u ⟨new, [], [], [], []⟩).trans ⟨?_, .inl⟩
    rintro (h | ⟨-, h⟩)
    · exact h
    · rcases hst with hst | hst <;> rw [hst] at h <;> cases h
  have hmem : ∀ n, n ∈ (s.insertNode w f name task new upstream won).nodes ↔
      n ∈ s.nodes ∨ n = ⟨s.nextNode, w, name, task, none, none, false⟩ := fun n => by
    exact List.mem_append.trans (or_congr_right List.mem_singleton)
  refine ⟨fun u hu => List.mem_cons_of_mem _ (hi.wonUsed u ((hsucc u).mp hu)), fun u hu st h => ?_,
    fun n hn hu => ?_, fun n hn st h => ?_, fun n hn st e h hw he => ?_, hi.readSettled,
    fun y r hr' st h => ?_⟩
  · have hu := (hsucc u).mp hu
    rw [hstatus u (hi.wonUsed u hu)] at h
    exact hi.final u hu st h
  · have hu := (hsucc _).mp hu
    rcases (hmem n).mp hn with hold | rfl
    · exact hi.recorded n hold hu
    · exact absurd (hi.wonUsed _ hu) hnew
  · rcases (hmem n).mp hn with hold | rfl
    · exact hi.settled n hold st h
    · cases h
  · rcases (hmem n).mp hn with hold | rfl
    · rw [hrow _ (hr.nodeUsed n hold)] at h
      exact hi.answerable n hold st e h hw he
    · cases he
  · rw [hrow _ (hr.readUsed y r hr')] at h
    exact hi.readAnswerable y r hr' st h

theorem last_of_start (h : s.Start) : s.LastInv := by
  obtain ⟨-, -, -, hr, hn, -, -, -, hp, -, -, -, hs⟩ := h
  refine ⟨by simp [hs], by simp [hs], by simp [hn], by simp [hn], by simp [hn], ?_, ?_⟩ <;>
    simp [hp, WorkflowPass.records]

/-- Only the outcome of an attempt makes a row SUCCESSFUL. -/
theorem won_of_step {r r' : RowState} {a : RowAction} (ho : s.OrderInv) (hrow : s.rows t = some r)
    (ha : r.step a = some r') (hplain : ∀ b held now ending, a ≠ .writeOutcome b held now ending)
    (hst : r'.row.status = .successful) : t ∈ s.succeeded := by
  have hm := RowState.step_moves ha
  have hsame : r.row.status = .successful := by
    cases a with
    | writeOutcome b held now ending => exact absurd rfl (hplain b held now ending)
    | renewLease w leaseNow | expireLease now | reloadClaimed epoch => exact hm.symm.trans hst
    | _ =>
      have hne := hm.2
      rw [hst] at hne
      cases hne
  exact ho.won t (by simp [status, hrow, hsame])

theorem step_last {a : WorkflowAction} (ho : s.OrderInv) (hr : s.RecordInv) (hi : s.LastInv)
    (hc : a.WritesPlain = false) (h : step s a = some s') : s'.LastInv := by
  cases a with
  | claim u a | row u a =>
    obtain ⟨⟨hkind, -⟩, h⟩ := Option.ite_none_right_eq_some.mp h
    obtain ⟨r', hb, rfl⟩ := Option.map_eq_some_iff.mp h
    obtain ⟨r, hrow, ha⟩ := Option.bind_eq_some_iff.mp hb
    refine hi.putRow hr hrow ha ?_ (won_of_step ho hrow ha ?_)
    · cases a <;> first | rfl | cases hkind
    · rintro b held now ending rfl
      simp [RowAction.IsClaim, WorkflowAction.WritesPlain] at hkind hc
  | outcome u b held now ending =>
    obtain ⟨-, h⟩ := Option.ite_none_right_eq_some.mp h
    obtain ⟨r', hb, rfl⟩ := Option.map_eq_some_iff.mp h
    obtain ⟨r, hrow, ha⟩ := Option.bind_eq_some_iff.mp hb
    by_cases hst : r'.row.status = .successful
    · simp only [hst, true_or, if_true]
      rw [← hst]
      exact hi.outcome hr hrow ha hst
    · have hput : (s.putRow u r').LastInv := hi.putRow hr hrow ha rfl fun h => absurd h hst
      have hputR : (s.putRow u r').RecordInv := hr.putRow hrow ha rfl
      split_ifs with hset
      · refine hput.recordNodeOutcome hputR ?_ (.inr (.inl (hset.resolve_left hst)))
        rw [row_putRow, if_pos rfl]
      · exact hput
  | commitAdd x task call inherited now =>
    simp only [step] at h
    split at h
    · split at h
      · obtain ⟨⟨-, hnew, -⟩, h⟩ := Option.ite_none_right_eq_some.mp h
        obtain rfl := Option.some.inj h
        exact (hi.insertNode hr hnew (addedRow_status.imp_left And.left)).unread rfl
      · cases h
    · cases h
  | pruneTask u =>
    simp only [step] at h
    split at h
    · obtain ⟨-, h⟩ := Option.ite_none_right_eq_some.mp h
      obtain rfl := Option.some.inj h
      exact hi.prune
    · cases h
  | markProven x locked =>
    simp only [step] at h
    split at h
    · obtain rfl := Option.some.inj h
      exact LastInv.mark (hi.unread rfl) _
    · cases h
  | readRepairs x w =>
    simp only [step] at h
    split at h
    · obtain rfl := Option.some.inj h
      refine hi.setPass fun r hr => .inr ?_
      obtain ⟨n, hn, hmap⟩ := List.mem_filterMap.mp hr
      obtain ⟨⟨st, e⟩, hrow, rfl⟩ := Option.map_eq_some_iff.mp hmap
      have hkind := (List.mem_filter.mp hn).2
      rw [decide_eq_true_eq, hrow] at hkind
      refine ⟨hrow, by_contra fun hset => ?_⟩
      simp [OxpullWorkflowNode.kind, hset] at hkind
    · cases h
  | commitRepairs x =>
    simp only [step] at h
    split at h
    · next records hx =>
      obtain rfl := Option.some.inj h
      have hok : s.PassOk (.repairing records) := hx ▸ ho.passes x
      have hmem : ∀ r ∈ records, r ∈ (s.passes x).records := by
        rw [hx]
        exact fun r hr => hr
      have hrec := hi.recordMany hr fun r h => ⟨hi.says_read hr (hmem r h), (hok r h).2.1⟩
      exact LastInv.mark (hrec.unread (x := x) (p := .idle) rfl) _
    · cases h
  | readNodeRows x size =>
    simp only [step] at h
    split at h
    · next nodes records hx =>
      obtain rfl := Option.some.inj h
      refine hi.setPass fun r hr => ?_
      rcases List.mem_append.mp hr with hr | hr
      · left
        rw [hx]
        exact hr
      · right
        obtain ⟨n, -, hw⟩ := List.mem_filterMap.mp hr
        unfold wantedRecord at hw
        split at hw
        · next st e hrow =>
          obtain ⟨hset, hw⟩ := Option.ite_none_right_eq_some.mp hw
          obtain rfl := Option.some.inj hw
          exact ⟨hrow, hset.1⟩
        · cases hw
    · cases h
  | writeRecords x locked =>
    simp only [step] at h
    split at h
    · next records hx =>
      obtain rfl := Option.some.inj h
      have hok : s.PassOk (.looking [] records) := hx ▸ ho.passes x
      have hmem : ∀ r ∈ records, r ∈ (s.passes x).records := by
        rw [hx]
        exact fun r hr => hr
      have hsaid : ∀ r ∈ records.filter (·.1 ∈ locked), s.Says r.2.1 r.2.2.1 r.2.2.2 ∧
          ∀ n ∈ s.nodes, n.pk = r.1 → n.task = r.2.1 := by
        intro r h
        have hr' := (List.mem_filter.mp h).1
        exact ⟨hi.says_read hr (hmem r hr'), (hok.2 r hr').2.1⟩
      have hrec := hi.recordMany hr hsaid
      exact hrec.unread (x := x) (p := .idle) rfl
    · cases h
  | releaseMany x now =>
    simp only [step] at h
    split at h
    · obtain ⟨-, h⟩ := Option.ite_none_right_eq_some.mp h
      obtain rfl := Option.some.inj h
      refine LastInv.unread ?_ rfl
      exact hi.updateMany hr (fun _ => rfl) fun e b st hm => by simp [hm.2]
    · cases h
  | cancelMany x now =>
    simp only [step] at h
    split at h
    · next w doomed pairs hx =>
      obtain ⟨-, h⟩ := Option.ite_none_right_eq_some.mp h
      obtain rfl := Option.some.inj h
      have hmany : (s.updateMany pairs fun e => .cancelMany e now).LastInv :=
        hi.updateMany hr (fun _ => rfl) fun e b st hm => by simp [hm.2]
      have hmanyR : (s.updateMany pairs fun e => .cancelMany e now).RecordInv :=
        hr.updateMany fun _ => rfl
      apply LastInv.hold
      refine LastInv.unread ?_ (p := .idle) rfl
      split_ifs
      · exact hmany
      · exact hmany.recordDiscarded hmanyR pairs
    · cases h
  | readCancellable x w =>
    simp only [step] at h
    split at h
    · obtain ⟨-, h⟩ := Option.ite_none_right_eq_some.mp h
      obtain rfl := Option.some.inj h
      apply LastInv.hold
      exact hi.unread rfl
    · cases h
  | lockDoomed x =>
    simp only [step] at h
    split at h
    · split at h
      · obtain rfl := Option.some.inj h
        exact hi.unread rfl
      · obtain ⟨-, h⟩ := Option.ite_none_right_eq_some.mp h
        obtain rfl := Option.some.inj h
        apply LastInv.hold
        exact hi.unread rfl
    · cases h
  | retireChunk x =>
    simp only [step] at h
    split at h
    · next w c chunk hx =>
      obtain ⟨-, h⟩ := Option.ite_none_right_eq_some.mp h
      obtain rfl := Option.some.inj h
      refine LastInv.unread ?_ rfl
      exact (hi.drop fun _ h => (List.mem_filter.mp h).1).mark _
    · cases h
  | abort x =>
    obtain rfl := Option.some.inj h
    apply LastInv.hold
    exact hi.unread rfl
  | create w | sealOnce w | complete w | stamp w | clear w =>
    simp only [step] at h
    repeat' split at h
    all_goals cases h
    all_goals exact hi.of_eq rfl rfl rfl rfl fun _ _ h => .inl h
  | _ =>
    simp only [step] at h
    repeat' split at h
    all_goals cases h
    all_goals exact hi.unread rfl

end WorkflowState

end DjangoOx
