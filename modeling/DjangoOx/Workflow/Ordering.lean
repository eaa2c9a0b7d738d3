import DjangoOx.Task.Fencing
import DjangoOx.Workflow.Evidence

/-! No node of a workflow runs before its upstreams have succeeded. -/
namespace DjangoOx

open Machine

namespace WorkflowState

variable {s s' : WorkflowState} {x : ℕ} {t u : TaskId} {p : WorkflowPass}

theorem status_of_row {st : Status} {e : ℕ} (h : s.row t = some (st, e)) :
    s.status t = some st := by
  unfold row at h
  unfold status
  cases hr : s.rows t with
  | none => simp [hr] at h
  | some r =>
    rw [hr] at h
    simp only [Option.map_some, Option.some.injEq, Prod.mk.injEq] at h ⊢
    exact h.1

theorem recorded_mem {st : Status} (h : s.recorded t = some st) :
    ∃ n ∈ s.nodes, n.task = t ∧ n.outcome = some st := by
  obtain ⟨n, hn, hout⟩ := Option.bind_eq_some_iff.mp h
  refine ⟨n, List.mem_of_find?_eq_some hn, ?_, hout⟩
  simpa using List.find?_some hn

theorem OrderInv.recordOk (hi : s.OrderInv) {n : OxpullWorkflowNode} {st : Status} {e : ℕ}
    (hn : n ∈ s.nodes) (hr : s.row n.task = some (st, e)) :
    s.RecordOk (n.pk, n.task, st, e) := by
  refine ⟨hi.nodeKeys n hn, fun n' hn' hpk => hi.nodeKey n' hn' n hn hpk, fun hst => ?_⟩
  exact hi.won _ (hst ▸ status_of_row hr)

/-- The edges a pass reads, before any proof. -/
theorem OrderInv.proving (hi : s.OrderInv) {es : List OxpullWorkflowEdge}
    (hes : ∀ e ∈ es, e ∈ s.edges) (unread gone : List TaskId) :
    s.PassOk (.proving (es.map edgeFields) unread gone []) := by
  refine ⟨by simp, fun e he => ?_⟩
  obtain ⟨e₀, h₀, rfl⟩ := List.mem_map.mp he
  exact ⟨hi.edgeKeys e₀ (hes e₀ h₀), fun e' he' hpk => hi.edgeKey e' he' e₀ (hes e₀ h₀) hpk⟩

theorem OrderInv.looking (hi : s.OrderInv) {ns : List OxpullWorkflowNode}
    (hns : ∀ n ∈ ns, n ∈ s.nodes) : s.PassOk (.looking (ns.map nodeFields) []) := by
  refine ⟨fun n hn => ?_, by simp⟩
  obtain ⟨n₀, h₀, rfl⟩ := List.mem_map.mp hn
  exact ⟨hi.nodeKeys n₀ (hns n₀ h₀), fun n' hn' hpk => hi.nodeKey n' hn' n₀ (hns n₀ h₀) hpk⟩

theorem order_of_start (h : s.Start) : s.OrderInv := by
  obtain ⟨-, -, -, hr, hn, he, -, -, hp, -, hu, hd, hs⟩ := h
  refine ⟨by simp [hr], by simp [hd], by simp [status, hr], by simp [hn], by simp [he], by simp [he],
    by simp [hd], by simp [status, hr], by simp [hn], by simp [he], by simp [hn], by simp [he],
    fun x => ?_⟩
  rw [hp x]
  trivial

theorem OrderInv.recordDiscarded (hi : s.OrderInv) (pairs : List (TaskId × ℕ)) :
    (s.recordDiscarded pairs).OrderInv :=
  recordDiscarded_induction s hi fun _ h _ _ _ => h.recordNode (by simp)

/-- Locks are taken or given up. -/
theorem OrderInv.hold (hi : s.OrderInv) (holder : TaskId → Option ℕ) (owner : ℕ → Option ℕ) :
    OrderInv { s with holder := holder, owner := owner } :=
  hi.of_eq rfl rfl rfl rfl rfl rfl rfl rfl hi.passes

theorem step_order {a : WorkflowAction} (hi : s.OrderInv) (h : step s a = some s') :
    s'.OrderInv := by
  cases a with
  | create w | sealOnce w | complete w | stamp w | clear w =>
    simp only [step] at h
    repeat' split at h
    all_goals cases h
    all_goals exact hi.of_eq rfl rfl rfl rfl rfl rfl rfl rfl hi.passes
  | startAdd x w name wanted =>
    simp only [step] at h
    split at h
    · obtain rfl := Option.some.inj h
      exact hi.setPass (by simp [PassOk])
    · cases h
  | readSucceeded x size =>
    simp only [step] at h
    split at h
    · next w name upstream unread won hx =>
      obtain rfl := Option.some.inj h
      have hok : s.PassOk (.adding w name upstream unread won) := hx ▸ hi.passes x
      refine hi.setPass fun u hu => ?_
      rcases List.mem_append.mp hu with hu | hu
      · exact hok u hu
      · exact hi.won u (by simpa using (List.mem_filter.mp hu).2)
    · cases h
  | commitAdd x task call inherited now =>
    simp only [step] at h
    split at h
    · next w name upstream won hx =>
      have hok : s.PassOk (.adding w name upstream [] won) := hx ▸ hi.passes x
      split at h
      · obtain ⟨⟨-, hnew, -⟩, h⟩ := Option.ite_none_right_eq_some.mp h
        obtain rfl := Option.some.inj h
        exact (hi.insertNode hnew hok addedRow_status).setPass trivial
      · cases h
    · cases h
  | claim t a =>
    obtain ⟨⟨hclaim, -, -⟩, h⟩ := Option.ite_none_right_eq_some.mp h
    obtain ⟨r', hb, rfl⟩ := Option.map_eq_some_iff.mp h
    obtain ⟨r, hr, ha⟩ := Option.bind_eq_some_iff.mp hb
    refine hi.putRow hr ha ?_ fun hrel => ?_
    · cases a <;> first | rfl | cases hclaim
    · cases a <;> simp_all [RowAction.IsClaim, RowAction.IsRelease]
  | outcome t b held now ending =>
    obtain ⟨-, h⟩ := Option.ite_none_right_eq_some.mp h
    obtain ⟨r', hb, rfl⟩ := Option.map_eq_some_iff.mp h
    obtain ⟨r, hr, ha⟩ := Option.bind_eq_some_iff.mp hb
    have hput := hi.putRow hr ha rfl (by simp [RowAction.IsRelease])
    split_ifs
    · refine hput.recordNodeOutcome fun hst => ?_
      exact (mem_succeeded_putRow s t t r').mpr (.inr ⟨rfl, hst⟩)
    · exact hput
  | row t a =>
    obtain ⟨⟨hplain, -⟩, h⟩ := Option.ite_none_right_eq_some.mp h
    obtain ⟨r', hb, rfl⟩ := Option.map_eq_some_iff.mp h
    obtain ⟨r, hr, ha⟩ := Option.bind_eq_some_iff.mp hb
    refine hi.putRow hr ha ?_ fun hrel => ?_
    · cases a <;> first | rfl | cases hplain
    · cases a <;> simp_all [RowAction.IsPlain, RowAction.IsRelease]
  | pruneTask t =>
    simp only [step] at h
    split at h
    · obtain ⟨-, h⟩ := Option.ite_none_right_eq_some.mp h
      obtain rfl := Option.some.inj h
      exact hi.prune
    · cases h
  | readEdgesInto x tasks | readEdgePage x w after upTo limit =>
    simp only [step] at h
    split at h
    · obtain rfl := Option.some.inj h
      refine hi.setPass (hi.proving (fun e he => ?_) _ _)
      first
        | exact (List.mem_filter.mp he).1
        | exact (List.mem_filter.mp (List.mem_of_mem_take he)).1
    · cases h
  | proveRows x size =>
    simp only [step] at h
    split at h
    · next edges unread gone proven hx =>
      obtain rfl := Option.some.inj h
      have hok : s.PassOk (.proving edges unread gone proven) := hx ▸ hi.passes x
      refine hi.setPass ⟨fun u hu => ?_, hok.2⟩
      rcases List.mem_append.mp hu with hu | hu
      · exact hok.1 u hu
      · exact hi.won u (by simpa using (List.mem_filter.mp hu).2)
    · cases h
  | proveRecords x size =>
    simp only [step] at h
    split at h
    · next edges gone proven hx =>
      obtain rfl := Option.some.inj h
      have hok : s.PassOk (.proving edges [] gone proven) := hx ▸ hi.passes x
      refine hi.setPass ⟨fun u hu => ?_, hok.2⟩
      rcases List.mem_append.mp hu with hu | hu
      · exact hok.1 u hu
      · have hrec : s.recorded u = some .successful := by simpa using (List.mem_filter.mp hu).2
        obtain ⟨n, hn, rfl, hout⟩ := recorded_mem hrec
        exact hi.records n hn hout
    · cases h
  | markProven x locked =>
    simp only [step] at h
    split at h
    · next edges proven hx =>
      obtain rfl := Option.some.inj h
      have hok : s.PassOk (.proving edges [] [] proven) := hx ▸ hi.passes x
      refine (hi.setPass (x := x) (p := .idle) trivial).mark fun e he => ?_
      split_ifs with hpk
      · refine .inr ⟨?_, rfl⟩
        obtain ⟨w, hw, hkey⟩ := List.mem_map.mp hpk
        obtain ⟨hmem, hprov⟩ := List.mem_filter.mp hw
        rw [decide_eq_true_eq] at hprov
        rw [(hok.2 w hmem).2 e he hkey.symm]
        exact hok.1 _ hprov.1
      · exact .inl rfl
    · cases h
  | readRepairs x w =>
    simp only [step] at h
    split at h
    · obtain rfl := Option.some.inj h
      refine hi.setPass fun r hr => ?_
      obtain ⟨n, hn, hmap⟩ := List.mem_filterMap.mp hr
      obtain ⟨⟨st, e⟩, hrow, rfl⟩ := Option.map_eq_some_iff.mp hmap
      exact hi.recordOk (List.mem_filter.mp hn).1 hrow
    · cases h
  | commitRepairs x =>
    simp only [step] at h
    split at h
    · next records hx =>
      obtain rfl := Option.some.inj h
      have hok : s.PassOk (.repairing records) := hx ▸ hi.passes x
      have hrec := (hi.setPass (x := x) (p := .idle) trivial).recordMany hok
      refine hrec.markOut fun u hu => ?_
      obtain ⟨r, hr, rfl⟩ := List.mem_map.mp hu
      obtain ⟨hmem, hst⟩ := List.mem_filter.mp hr
      exact (hok r hmem).2.2 (by simpa using hst)
    · cases h
  | readNodes x tasks | readNodePage x w after upTo limit =>
    simp only [step] at h
    split at h
    · obtain rfl := Option.some.inj h
      refine hi.setPass (hi.looking fun n hn => ?_)
      first
        | exact (List.mem_filter.mp hn).1
        | exact (List.mem_filter.mp (List.mem_of_mem_take hn)).1
    · cases h
  | readNodeRows x size =>
    simp only [step] at h
    split at h
    · next nodes records hx =>
      obtain rfl := Option.some.inj h
      have hok : s.PassOk (.looking nodes records) := hx ▸ hi.passes x
      refine hi.setPass ⟨fun n hn => hok.1 n (List.mem_of_mem_drop hn), fun r hr => ?_⟩
      rcases List.mem_append.mp hr with hr | hr
      · exact hok.2 r hr
      · obtain ⟨n, hn, hw⟩ := List.mem_filterMap.mp hr
        obtain ⟨hlt, htask⟩ := hok.1 n (List.mem_of_mem_take hn)
        unfold wantedRecord at hw
        split at hw
        · next st e hrow =>
          obtain ⟨-, hw⟩ := Option.ite_none_right_eq_some.mp hw
          obtain rfl := Option.some.inj hw
          exact ⟨hlt, htask, fun hst => hi.won _ (hst ▸ status_of_row hrow)⟩
        · cases hw
    · cases h
  | writeRecords x locked =>
    simp only [step] at h
    split at h
    · next records hx =>
      obtain rfl := Option.some.inj h
      have hok : s.PassOk (.looking [] records) := hx ▸ hi.passes x
      exact (hi.setPass (x := x) (p := .idle) trivial).recordMany
        fun r hr => hok.2 r (List.mem_filter.mp hr).1
    · cases h
  | startRelease x chunk =>
    simp only [step] at h
    split at h
    · obtain ⟨hd, h⟩ := Option.ite_none_right_eq_some.mp h
      obtain rfl := Option.some.inj h
      exact hi.setPass hd
    · cases h
  | readHeld x =>
    simp only [step] at h
    split at h
    · next chunk hx =>
      obtain rfl := Option.some.inj h
      have hok : s.PassOk (.releasing chunk) := hx ▸ hi.passes x
      refine hi.setPass fun t ht => ?_
      obtain ⟨hmem, hfree⟩ := List.mem_filter.mp ht
      rw [decide_eq_true_eq] at hfree
      exact ⟨hok t hmem, hfree⟩
    · cases h
  | readWaiting x =>
    simp only [step] at h
    split at h
    · next free hx =>
      obtain rfl := Option.some.inj h
      have hok : s.PassOk (.freed free) := hx ▸ hi.passes x
      refine hi.setPass fun q hq => ?_
      obtain ⟨t, ht, hsome⟩ := List.mem_filterMap.mp hq
      split at hsome
      · obtain ⟨-, hsome⟩ := Option.ite_none_right_eq_some.mp hsome
        obtain rfl := Option.some.inj hsome
        exact hok t ht
      · cases hsome
    · cases h
  | releaseMany x now =>
    simp only [step] at h
    split at h
    · next pairs hx =>
      obtain ⟨-, h⟩ := Option.ite_none_right_eq_some.mp h
      obtain rfl := Option.some.inj h
      have hok : s.PassOk (.paired pairs) := hx ▸ hi.passes x
      exact (hi.updateMany (fun _ => rfl) fun q hq _ => (hok q hq).2).setPass trivial
    · cases h
  | readCancellable x w =>
    simp only [step] at h
    split at h
    · obtain ⟨-, h⟩ := Option.ite_none_right_eq_some.mp h
      obtain rfl := Option.some.inj h
      apply OrderInv.hold
      exact hi.setPass trivial
    · cases h
  | lockDoomed x =>
    simp only [step] at h
    split at h
    · split at h
      · obtain rfl := Option.some.inj h
        exact hi.setPass trivial
      · obtain ⟨-, h⟩ := Option.ite_none_right_eq_some.mp h
        obtain rfl := Option.some.inj h
        apply OrderInv.hold
        exact hi.setPass trivial
    · cases h
  | readGone x | readCone x | readPairs x =>
    simp only [step] at h
    split at h
    · obtain rfl := Option.some.inj h
      exact hi.setPass trivial
    · cases h
  | cancelMany x now =>
    simp only [step] at h
    split at h
    · next w doomed pairs hx =>
      obtain ⟨-, h⟩ := Option.ite_none_right_eq_some.mp h
      obtain rfl := Option.some.inj h
      have hmany : (s.updateMany pairs fun e => .cancelMany e now).OrderInv :=
        hi.updateMany (fun _ => rfl) (by simp [RowAction.IsRelease])
      apply OrderInv.hold
      refine OrderInv.setPass ?_ (p := .idle) trivial
      split_ifs
      · exact hmany
      · exact hmany.recordDiscarded pairs
    · cases h
  | classifyRetirable x w =>
    simp only [step] at h
    split at h
    · obtain ⟨-, h⟩ := Option.ite_none_right_eq_some.mp h
      obtain rfl := Option.some.inj h
      exact hi.setPass trivial
    · cases h
  | readChunk x size =>
    simp only [step] at h
    split at h
    · obtain rfl := Option.some.inj h
      refine hi.setPass fun c hc hout => ?_
      obtain ⟨n, hn, rfl⟩ := List.mem_map.mp hc
      exact hi.records n (List.mem_filter.mp (List.mem_of_mem_take hn)).1 hout
    · cases h
  | retireChunk x =>
    simp only [step] at h
    split at h
    · next w c chunk hx =>
      obtain ⟨-, h⟩ := Option.ite_none_right_eq_some.mp h
      obtain rfl := Option.some.inj h
      have hok : s.PassOk (.chunked w (c :: chunk)) := hx ▸ hi.passes x
      exact (hi.retire hok).setPass trivial
    · cases h
  | abort x =>
    obtain rfl := Option.some.inj h
    apply OrderInv.hold
    exact hi.setPass trivial

theorem reachable_order (h : workflowSystem.Reachable s) : s.OrderInv :=
  h.invariant OrderInv (fun _ hs => order_of_start hs) fun _ _ _ hi hs => step_order hi hs

theorem succeeded_putRow {r : RowState} (h : t ∈ (s.putRow u r).succeeded) :
    t ∈ s.succeeded ∨ (s.putRow u r).status t = some .successful := by
  rcases (mem_succeeded_putRow s u t r).mp h with h | ⟨rfl, hst⟩
  · exact .inl h
  · right
    rw [status_putRow, if_pos rfl, hst]

/-- Bulk writes that record no success. -/
theorem succeeded_updateMany {pairs : List (TaskId × ℕ)} {a : ℕ → RowAction}
    (ha : ∀ e b st, (a e).Moves b st → st ≠ .successful) :
    (s.updateMany pairs a).succeeded = s.succeeded := by
  refine updateMany_induction (P := fun s' => s'.succeeded = s.succeeded) s rfl ?_
  intro s' hs' q _
  rcases update_cases s' q.1 (a q.2) with h | ⟨r, r', -, hstep, h⟩
  · rw [h]
    exact hs'
  · rw [h]
    unfold putRow
    have hne : r'.row.status ≠ .successful := ha q.2 _ _ (RowState.step_moves hstep)
    simp only [if_neg hne]
    exact hs'

/-- A task joins `succeeded` in the step that leaves its row SUCCESSFUL. -/
theorem succeeded_step {a : WorkflowAction} (h : step s a = some s') (ht : t ∈ s'.succeeded) :
    t ∈ s.succeeded ∨ s'.status t = some .successful := by
  cases a with
  | commitAdd x task call inherited now =>
    simp only [step] at h
    split at h
    · next w name upstream won hx =>
      split at h
      · obtain ⟨-, h⟩ := Option.ite_none_right_eq_some.mp h
        obtain rfl := Option.some.inj h
        exact succeeded_putRow ht
      · cases h
    · cases h
  | claim u a | row u a =>
    obtain ⟨-, h⟩ := Option.ite_none_right_eq_some.mp h
    obtain ⟨r', -, rfl⟩ := Option.map_eq_some_iff.mp h
    exact succeeded_putRow ht
  | outcome u b held now ending =>
    obtain ⟨-, h⟩ := Option.ite_none_right_eq_some.mp h
    obtain ⟨r', -, rfl⟩ := Option.map_eq_some_iff.mp h
    obtain ⟨nodes, edges, heq⟩ :=
      recordNodeOutcome_frame (s.putRow u r') u r'.row.status r'.row.leaseEpoch
    simp only [heq] at ht ⊢
    split_ifs at ht ⊢ <;> exact succeeded_putRow ht
  | releaseMany x now =>
    simp only [step] at h
    split at h
    · obtain ⟨-, h⟩ := Option.ite_none_right_eq_some.mp h
      obtain rfl := Option.some.inj h
      left
      have hmany : ∀ pairs, (s.updateMany pairs fun e => .release e now).succeeded = s.succeeded :=
        fun pairs => succeeded_updateMany fun e b st hm => by simp [hm.2]
      rwa [← hmany]
    · cases h
  | cancelMany x now =>
    simp only [step] at h
    split at h
    · next w doomed pairs hx =>
      obtain ⟨-, h⟩ := Option.ite_none_right_eq_some.mp h
      obtain rfl := Option.some.inj h
      left
      have hmany : (s.updateMany pairs fun e => .cancelMany e now).succeeded = s.succeeded :=
        succeeded_updateMany fun e b st hm => by simp [hm.2]
      rw [← hmany]
      change t ∈ (ite _ _ _ : WorkflowState).succeeded at ht
      obtain ⟨nodes, heq⟩ :=
        recordDiscarded_frame (s.updateMany pairs fun e => .cancelMany e now) pairs
      rw [heq] at ht
      split_ifs at ht <;> exact ht
    · cases h
  | _ =>
    left
    simp only [step] at h
    repeat' split at h
    all_goals cases h
    all_goals exact ht

/-- A claim finds its row READY. -/
theorem claim_ready {c : RowAction} (h : step s (.claim t c) = some s') :
    s.status t = some .ready := by
  obtain ⟨⟨hclaim, -, -⟩, h⟩ := Option.ite_none_right_eq_some.mp h
  obtain ⟨r', hb, rfl⟩ := Option.map_eq_some_iff.mp h
  obtain ⟨r, hr, hc⟩ := Option.bind_eq_some_iff.mp hb
  have hm := RowState.step_moves hc
  have hst : r.row.status = .ready := by
    cases c <;> first | exact hm.1 | cases hclaim
  simp [status, hr, hst]

/-- The task's row was SUCCESSFUL in an earlier state of some run to this one. -/
def SucceededBefore (s : WorkflowState) (t : TaskId) : Prop :=
  ∃ s₀ as, workflowSystem.Reachable s₀ ∧ workflowSystem.run s₀ as = some s ∧
    s₀.status t = some .successful

/-- `succeeded` holds the tasks whose rows were SUCCESSFUL at some time. -/
theorem succeededBefore_of_mem (h : workflowSystem.Reachable s) (ht : t ∈ s.succeeded) :
    s.SucceededBefore t := by
  induction h with
  | init hs =>
    obtain ⟨-, -, -, -, -, -, -, -, -, -, -, -, hempty⟩ := hs
    simp [hempty] at ht
  | @step s₁ a s₂ hr _ hs ih =>
    rcases succeeded_step hs ht with hold | hnew
    · obtain ⟨s₀, as, h₀, hrun, hst⟩ := ih hold
      refine ⟨s₀, as ++ [a], h₀, ?_, hst⟩
      rw [System.run_append, hrun]
      exact System.run_cons hs
    · exact ⟨_, [], System.Reachable.step hr hs, rfl, hnew⟩

end WorkflowState

/-- In every run of a workflow: a marked edge's upstream was SUCCESSFUL at some time, a WAITING node
becomes READY with every edge into it marked and none of those it was added with missing, and a
node is claimed after each upstream it was added with has been SUCCESSFUL. -/
theorem workflow_order {s : WorkflowState} (h : workflowSystem.Reachable s) :
    (∀ e ∈ s.edges, e.satisfied = true → s.SucceededBefore e.upstream) ∧
    (∀ a s' t, workflowSystem.step s a = some s' → s.status t = some .waiting →
      s'.status t = some .ready →
        (∀ e ∈ s'.edges, e.downstream = t → e.satisfied = true) ∧
        ∀ ds, s'.declared t = some ds → ∀ u ∈ ds,
          ∃ e ∈ s'.edges, e.upstream = u ∧ e.downstream = t) ∧
    (∀ t c s', workflowSystem.step s (.claim t c) = some s' →
      ∀ ds, s.declared t = some ds → ∀ u ∈ ds, s.SucceededBefore u) := by
  have hi := WorkflowState.reachable_order h
  refine ⟨fun e he hsat => ?_, fun a s' t hs hw hr => ?_, fun t c s' hs ds hd u hu => ?_⟩
  · exact WorkflowState.succeededBefore_of_mem h (hi.marks e he hsat)
  · have hi' : s'.OrderInv := WorkflowState.step_order hi hs
    refine ⟨hi'.started t .ready hr (by simp) (by simp), fun ds hd => ?_⟩
    exact hi'.gates t ds .ready hd hr (by simp [Status.Retirable])
  · have hready : s.status t = some .ready := WorkflowState.claim_ready hs
    obtain ⟨e, he, hup, hdown⟩ := hi.gates t ds .ready hd hready (by simp [Status.Retirable]) u hu
    have hopen : s.Open t := hi.started t .ready hready (by simp) (by simp)
    rw [← hup]
    exact WorkflowState.succeededBefore_of_mem h (hi.marks e he (hopen e he hdown))

/-- No workflow, no row. -/
def noWorkflow : WorkflowState where
  workflows _ := none
  rows _ := none
  nodes := []
  edges := []
  holder _ := none
  owner _ := none
  passes _ := .idle
  cleared := []
  used := []
  nextNode := 1
  nextEdge := 1
  declared _ := none
  succeeded := []

theorem noWorkflow_start : noWorkflow.Start :=
  ⟨rfl, rfl, fun _ => rfl, fun _ => rfl, rfl, rfl, fun _ => rfl, fun _ => rfl, fun _ => rfl, rfl,
    rfl, fun _ => rfl, rfl⟩

/-- A call with one attempt and nothing else set. -/
def oneAttempt : Call := ⟨"t", "default", 0, none, some 1⟩

/-- The row of `oneAttempt` as its execution holds it, after so many failures and retries. -/
def heldAttempt (failures : List TaskError) (attempts epoch : ℕ) : OxTask :=
  { row oneAttempt 1 0 with
    status := .running
    attempts := attempts
    maxAttempts := attempts
    errors := failures
    workerIds := List.replicate attempts "w1"
    startedAt := some 5
    lastAttemptedAt := some 5
    lockedBy := some "w1"
    lockedAt := some 5
    leaseExpiresAt := some 15
    leaseEpoch := epoch }

/-- A task that fails, is retried, succeeds and is pruned, and the node behind it. -/
def retriedThenPruned : List WorkflowAction :=
  [.create 0, .startAdd 0 0 "a" [], .commitAdd 0 1 oneAttempt 1 0, .startAdd 0 0 "b" ["a"],
    .readSucceeded 0 100, .commitAdd 0 2 oneAttempt 1 0, .clear 1,
    .claim 1 (.claimPostgresql (soloWorker "w1") 5 5),
    .outcome 1 ⟨1, 1⟩ (heldAttempt [] 1 1) 6 (.raised ⟨"E", ""⟩ none), .row 1 .retryMany,
    .claim 1 (.claimPostgresql (soloWorker "w1") 5 5),
    .outcome 1 ⟨1, 1⟩ (heldAttempt [⟨"E", ""⟩] 2 3) 7 (.returned none), .pruneTask 1,
    .startRelease 0 [2], .readHeld 0, .readWaiting 0, .releaseMany 0 8, .clear 2]

theorem workflow_order_retried :
    ∃ s s', workflowSystem.run noWorkflow retriedThenPruned = some s ∧
      workflowSystem.step s (.claim 2 (.claimPostgresql (soloWorker "w1") 9 9)) = some s' ∧
      s.status 1 = none ∧ s.SucceededBefore 1 := by
  have claimed : ∀ s s', workflowSystem.run noWorkflow retriedThenPruned = some s →
      workflowSystem.step s (.claim 2 (.claimPostgresql (soloWorker "w1") 9 9)) = some s' →
      s.declared 2 = some [1] → s.SucceededBefore 1 := fun s s' hrun hs hd =>
    (workflow_order (.of_run noWorkflow_start hrun)).2.2 2 _ s' hs [1] hd 1 (by simp)
  exact ⟨_, _, rfl, rfl, rfl, claimed _ _ rfl rfl rfl⟩

end DjangoOx
