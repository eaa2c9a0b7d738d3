import DjangoOx.Workflow.NodeOutcome

/-! What one step can do to the rows, the nodes and the locks of a workflow, whichever party it
is. -/
namespace DjangoOx

open Machine

/-- The party whose pass the step moves; `none` for callers, workers, operators and the prune. -/
def WorkflowAction.party : WorkflowAction → Option ℕ
  | .create _ | .sealOnce _ | .complete _ | .stamp _ | .clear _ | .claim _ _ | .outcome _ _ _ _ _
  | .row _ _ | .pruneTask _ => none
  | .startAdd x _ _ _ | .readSucceeded x _ | .commitAdd x _ _ _ _ | .readEdgesInto x _
  | .readEdgePage x _ _ _ _ | .proveRows x _ | .proveRecords x _ | .markProven x _
  | .readRepairs x _ | .commitRepairs x | .readNodes x _ | .readNodePage x _ _ _ _
  | .readNodeRows x _ | .writeRecords x _ | .startRelease x _ | .readHeld x | .readWaiting x
  | .releaseMany x _ | .readCancellable x _ | .lockDoomed x | .readGone x | .readCone x
  | .readPairs x | .cancelMany x _ | .classifyRetirable x _ | .readChunk x _ | .retireChunk x
  | .abort x => some x

/-- The workflow that the step completes. -/
def WorkflowAction.completes : WorkflowAction → Option ℕ
  | .complete w => some w
  | _ => none

namespace OxpullWorkflowNode

/-- What no step writes of a node. -/
def key (n : OxpullWorkflowNode) : ℕ × ℕ × TaskId := (n.pk, n.workflow, n.task)

theorem record_key (n : OxpullWorkflowNode) (st : Status) (e : ℕ) : (n.record st e).key = n.key := by
  simp [key]

end OxpullWorkflowNode

/-- No row becomes WAITING but by a revival. -/
theorem RowState.step_waiting {r r' : RowState} {d : RowAction} (hrev : d.IsRevive = false)
    (h : r.step d = some r') (hw : r'.row.status = .waiting) :
    r.row.status = .waiting ∧ r'.row.leaseEpoch = r.row.leaseEpoch := by
  have hm := RowState.step_moves h
  rw [hw] at hm
  cases d with
  | reviveMany epoch => cases hrev
  | renewLease w leaseNow =>
    obtain ⟨new, hnew, rfl⟩ := Option.map_eq_some_iff.mp h
    obtain ⟨-, rfl⟩ := OxTask.renewLease_eq_some.mp hnew
    exact ⟨hm.symm, rfl⟩
  | expireLease now =>
    obtain ⟨new, hnew, rfl⟩ := Option.map_eq_some_iff.mp h
    obtain ⟨-, rfl⟩ := OxTask.expireLease_eq_some.mp hnew
    exact ⟨hm.symm, rfl⟩
  | reloadClaimed epoch =>
    obtain ⟨-, h⟩ := Option.ite_none_right_eq_some.mp h
    obtain rfl := Option.some.inj h
    exact ⟨hw, rfl⟩
  | _ => simp [RowAction.Moves] at hm

namespace WorkflowState

variable {s s' : WorkflowState} {x w : ℕ} {t u : TaskId} {a : WorkflowAction} {p c : Option ℕ}

def nodeKeys (s : WorkflowState) : List (ℕ × ℕ × TaskId) := s.nodes.map (·.key)

/-- What a step of the party does to a task's row. -/
inductive RowTurn (s s' : WorkflowState) (p : Option ℕ) (t : TaskId) : Prop
  | same (h : s'.rows t = s.rows t)
  /-- It moves, under no other party's lock, and not out of SUCCESSFUL or DISCARDED. -/
  | moved (r r' : RowState) (hr : s.rows t = some r) (hr' : s'.rows t = some r')
      (hfree : ∀ y, s.holder t = some y → p = some y)
      (hfinal : r.row.status.Retirable → r'.row.status = r.row.status)
      (hwaits : r'.row.status = .waiting →
        r.row.status = .waiting ∧ r'.row.leaseEpoch = r.row.leaseEpoch)
  | gone (hr' : s'.rows t = none) (hfree : s.holder t = none)
  | born (hnew : t ∉ s.used) (hnode : ∃ k ∈ s'.nodeKeys, k.2.2 = t)

/-- What a step that may complete a workflow does to the workflow rows and the nodes. -/
inductive TablesTurn (s s' : WorkflowState) (c : Option ℕ) : Prop
  | still (hn : s'.nodeKeys = s.nodeKeys) (hw : s'.workflows = s.workflows)
      (hk : s'.nextNode = s.nextNode)
  | created (w : ℕ) (hn : s'.nodeKeys = s.nodeKeys) (hk : s'.nextNode = s.nextNode)
      (hnone : s.workflows w = none)
      (hw : s'.workflows = Function.update s.workflows w (some ⟨.opened, 0, none, false⟩))
  | moved (w : ℕ) (f f' : OxpullWorkflow) (hn : s'.nodeKeys = s.nodeKeys)
      (hk : s'.nextNode = s.nextNode) (hf : s.workflows w = some f)
      (hw : s'.workflows = Function.update s.workflows w (some f'))
      (hmove : f.status = .opened ∧ f' = { f with status := .sealed, totalCount := some f.nodeCount } ∨
        f.status = .sealed ∧ f' = { f with status := .complete } ∧ c = some w ∨
        f.status = .complete ∧ f' = { f with retired := true })
  | added (w : ℕ) (f : OxpullWorkflow) (task : TaskId)
      (hn : s'.nodeKeys = s.nodeKeys ++ [(s.nextNode, w, task)])
      (hk : s'.nextNode = s.nextNode + 1) (hf : s.workflows w = some f)
      (hopen : f.status = .opened) (hnew : task ∉ s.used) (hused : task ∈ s'.used)
      (hw : s'.workflows =
        Function.update s.workflows w (some { f with nodeCount := f.nodeCount + 1 }))
  | retired (x w : ℕ) (chunk : List (ℕ × TaskId × Option Status))
      (keep : OxpullWorkflowNode → Bool) (hp : s.passes x = .chunked w chunk)
      (hn : s'.nodes = s.nodes.filter keep) (hw : s'.workflows = s.workflows)
      (hk : s'.nextNode = s.nextNode)
      (hkeep : ∀ n ∈ s.nodes, keep n = false →
        ∃ c ∈ chunk, c.1 = n.pk ∧ ∀ st, s.status c.2.1 = some st → st.Retirable)

/-- What a step makes of a party's pass, where it retires a workflow. -/
inductive PassTurn (s s' : WorkflowState) (x : ℕ) : Prop
  | same (h : s'.passes x = s.passes x)
  | other (h : ∀ w after, s'.passes x ≠ .retiring w after)
      (h' : ∀ w chunk, s'.passes x ≠ .chunked w chunk)
  | classified (w after : ℕ) (f : OxpullWorkflow) (h : s'.passes x = .retiring w after)
      (hf : s.workflows w = some f) (hc : f.status = .complete)
  | read (w after : ℕ) (chunk : List (ℕ × TaskId × Option Status))
      (h : s'.passes x = .chunked w chunk) (hp : s.passes x = .retiring w after)
      (hchunk : ∀ c ∈ chunk, ∃ n ∈ s.nodes, n.workflow = w ∧ n.pk = c.1 ∧ n.task = c.2.1)
  | retired (w after : ℕ) (chunk : List (ℕ × TaskId × Option Status))
      (h : s'.passes x = .retiring w after) (hp : s.passes x = .chunked w chunk)

/-- What a step does to what the other parties rely on: theirs is every lock but the party's own. -/
structure Turn (s s' : WorkflowState) (p c : Option ℕ) : Prop where
  rows : ∀ t, RowTurn s s' p t
  tables : TablesTurn s s' c
  passes : ∀ x, PassTurn s s' x
  holder : ∀ t y, s.holder t = some y → p ≠ some y → s'.holder t = some y
  owner : ∀ w y, s.owner w = some y → p ≠ some y → s'.owner w = some y

theorem none_of_turn (h : s.rows u = none) (hu : u ∈ s.used) (ht : Turn s s' p c) :
    s'.rows u = none := by
  cases ht.rows u with
  | same hsame => exact hsame.trans h
  | moved r _ hr =>
    rw [h] at hr
    cases hr
  | gone hnone => exact hnone
  | born hnew => exact absurd hu hnew

theorem nodeKeys_recordMany (nodes : List OxpullWorkflowNode)
    (records : List (ℕ × Status × ℕ)) :
    (recordMany nodes records).map (·.key) = nodes.map (·.key) := by
  obtain ⟨f, hmap, hf⟩ := exists_recordMany nodes records
  rw [hmap, List.map_map]
  refine List.map_congr_left fun n _ => ?_
  rcases hf n with h | ⟨st, e, -, h⟩
  · exact congrArg OxpullWorkflowNode.key h
  · exact (congrArg OxpullWorkflowNode.key h).trans (n.record_key st e)

theorem nodeKeys_recordNode (s : WorkflowState) (t : TaskId) (st : Status) (e : ℕ) :
    (s.recordNode t st e).nodeKeys = s.nodeKeys := by
  unfold nodeKeys recordNode
  rw [List.map_map]
  refine List.map_congr_left fun n _ => ?_
  show (if n.task = t then n.record st e else n).key = n.key
  split_ifs
  · exact n.record_key st e
  · rfl

theorem nodeKeys_recordNodeOutcome (s : WorkflowState) (t : TaskId) (st : Status) (e : ℕ) :
    (s.recordNodeOutcome t st e).nodeKeys = s.nodeKeys := by
  unfold recordNodeOutcome
  split_ifs
  · exact s.nodeKeys_recordNode t st e
  · exact s.nodeKeys_recordNode t st e
  · rfl

theorem nodeKeys_recordDiscarded (s : WorkflowState) (pairs : List (TaskId × ℕ)) :
    (s.recordDiscarded pairs).nodeKeys = s.nodeKeys :=
  recordDiscarded_induction (P := fun s' => s'.nodeKeys = s.nodeKeys) s rfl
    fun s' h t e _ => (s'.nodeKeys_recordNode t .discarded e).trans h

/-- The rows a bulk write finds move, and not out of SUCCESSFUL or DISCARDED. -/
theorem rows_updateMany {pairs : List (TaskId × ℕ)} {d : ℕ → RowAction}
    (hrev : ∀ e, (d e).IsRevive = false) (t : TaskId) :
    (s.updateMany pairs d).rows t = s.rows t ∨ t ∈ pairs.map (·.1) ∧
      ∃ r r', s.rows t = some r ∧ (s.updateMany pairs d).rows t = some r' ∧
        (r.row.status.Retirable → r'.row.status = r.row.status) ∧
        (r'.row.status = .waiting →
          r.row.status = .waiting ∧ r'.row.leaseEpoch = r.row.leaseEpoch) := by
  refine updateMany_induction (P := fun s' => s'.rows t = s.rows t ∨ t ∈ pairs.map (·.1) ∧
    ∃ r r', s.rows t = some r ∧ s'.rows t = some r' ∧
      (r.row.status.Retirable → r'.row.status = r.row.status) ∧
      (r'.row.status = .waiting →
        r.row.status = .waiting ∧ r'.row.leaseEpoch = r.row.leaseEpoch)) s (.inl rfl) ?_
  intro s' hs' q hq
  rcases update_cases s' q.1 (d q.2) with h | ⟨r₁, r₂, hr₁, hstep, h⟩
  · rw [h]
    exact hs'
  · rw [h, rows_putRow]
    by_cases ht : t = q.1
    · rw [if_pos ht]
      subst ht
      have hmem : q.1 ∈ pairs.map (·.1) := List.mem_map_of_mem hq
      have hlast : r₁.row.status.Retirable → r₂.row.status = r₁.row.status :=
        fun hfin => RowState.step_final (hrev q.2) hstep hfin
      have hwaits := fun hw => RowState.step_waiting (hrev q.2) hstep hw
      rcases hs' with hsame | ⟨-, r, r', hr, hr', hfinal, hbefore⟩
      · exact .inr ⟨hmem, r₁, r₂, hsame.symm.trans hr₁, rfl, hlast, hwaits⟩
      · obtain rfl := Option.some.inj (hr₁.symm.trans hr')
        refine .inr ⟨hmem, r, r₂, hr, rfl, fun hfin => ?_, fun hw => ?_⟩
        · have hmid := hfinal hfin
          exact (hlast (hmid.symm ▸ hfin)).trans hmid
        · obtain ⟨hmid, he⟩ := hwaits hw
          obtain ⟨hold, he'⟩ := hbefore hmid
          exact ⟨hold, he.trans he'⟩
    · rw [if_neg ht]
      exact hs'

theorem RowTurn.of_eq (h : s'.rows = s.rows) (t : TaskId) : RowTurn s s' p t :=
  .same (congrFun h t)

/-- A row moves by a step that is no revival. -/
theorem rowTurn_put {r r' : RowState} {d : RowAction} (hr : s.rows u = some r)
    (hstep : r.step d = some r') (hrev : d.IsRevive = false)
    (hfree : ∀ y, s.holder u = some y → p = some y)
    (hrows : s'.rows = Function.update s.rows u (some r')) (t : TaskId) : RowTurn s s' p t := by
  by_cases ht : t = u
  · subst ht
    refine .moved r r' hr ?_ hfree (fun hfin => RowState.step_final hrev hstep hfin)
      fun hw => RowState.step_waiting hrev hstep hw
    rw [hrows]
    exact Function.update_self ..
  · apply RowTurn.same
    rw [hrows]
    exact Function.update_of_ne ht ..

theorem rowTurn_many {pairs : List (TaskId × ℕ)} {d : ℕ → RowAction}
    (hrev : ∀ e, (d e).IsRevive = false)
    (hfree : ∀ q ∈ pairs, ∀ y, s.holder q.1 = some y → p = some y)
    (hrows : s'.rows = (s.updateMany pairs d).rows) (t : TaskId) : RowTurn s s' p t := by
  rcases rows_updateMany hrev t with hsame | ⟨hmem, r, r', hr, hr', hfinal, hwaits⟩
  · exact .same (by rw [hrows, hsame])
  · obtain ⟨q, hq, rfl⟩ := List.mem_map.mp hmem
    exact .moved r r' hr (by rw [hrows, hr']) (hfree q hq) hfinal hwaits

theorem PassTurn.of_eq (h : s'.passes = s.passes) (x : ℕ) : PassTurn s s' x :=
  .same (congrFun h x)

/-- The pass of one party moves. -/
theorem passTurn_set {q : WorkflowPass} (hp : s'.passes = Function.update s.passes x q)
    (h : PassTurn s s' x) (y : ℕ) : PassTurn s s' y := by
  by_cases hy : y = x
  · exact hy ▸ h
  · apply PassTurn.same
    rw [hp]
    exact Function.update_of_ne hy ..

/-- The same, to a pass that retires nothing. -/
theorem passTurn_other {q : WorkflowPass} (hp : s'.passes = Function.update s.passes x q)
    (h : ∀ w after, q ≠ .retiring w after) (h' : ∀ w chunk, q ≠ .chunked w chunk) (y : ℕ) :
    PassTurn s s' y := by
  have hself : s'.passes x = q := by
    rw [hp]
    exact Function.update_self ..
  exact passTurn_set hp (.other (hself ▸ h) (hself ▸ h')) y

theorem turn_of_eq (hr : s'.rows = s.rows) (hn : s'.nodeKeys = s.nodeKeys)
    (hw : s'.workflows = s.workflows) (hk : s'.nextNode = s.nextNode)
    (hp : ∀ x, PassTurn s s' x) (hh : s'.holder = s.holder) (ho : s'.owner = s.owner) :
    Turn s s' p c where
  rows := .of_eq hr
  tables := .still hn hw hk
  passes := hp
  holder t y h _ := by rwa [hh]
  owner w y h _ := by rwa [ho]

theorem turn_of_rows (hr : ∀ t, RowTurn s s' p t) (hn : s'.nodeKeys = s.nodeKeys)
    (hw : s'.workflows = s.workflows) (hk : s'.nextNode = s.nextNode)
    (hp : ∀ x, PassTurn s s' x) (hh : s'.holder = s.holder) (ho : s'.owner = s.owner) :
    Turn s s' p c where
  rows := hr
  tables := .still hn hw hk
  passes := hp
  holder t y h _ := by rwa [hh]
  owner w y h _ := by rwa [ho]

/-- A party's transaction ends, and its locks with it. -/
theorem turn_of_unlock (hr : ∀ t, RowTurn s s' p t) (hn : s'.nodeKeys = s.nodeKeys)
    (hw : s'.workflows = s.workflows) (hk : s'.nextNode = s.nextNode)
    (hp : ∀ y, PassTurn s s' y)
    (hh : s'.holder = fun t => if s.holder t = p then none else s.holder t)
    (ho : s'.owner = fun v => if s.owner v = p then none else s.owner v) :
    Turn s s' p c where
  rows := hr
  tables := .still hn hw hk
  passes := hp
  holder t y h hne := by
    rw [hh]
    exact (if_neg fun heq => hne (heq.symm.trans h)).trans h
  owner v y h hne := by
    rw [ho]
    exact (if_neg fun heq => hne (heq.symm.trans h)).trans h

/-- A level's records, which only a level that moved a row writes. -/
theorem exists_level (s : WorkflowState) (pairs moved : List (TaskId × ℕ)) :
    ∃ nodes, (if moved = [] then s else s.recordDiscarded pairs) = { s with nodes := nodes } ∧
      nodes.map (·.key) = s.nodeKeys := by
  split_ifs
  · exact ⟨s.nodes, rfl, rfl⟩
  · have hkeys := s.nodeKeys_recordDiscarded pairs
    obtain ⟨nodes, hframe⟩ := s.recordDiscarded_frame pairs
    rw [hframe] at hkeys ⊢
    exact ⟨nodes, rfl, hkeys⟩

/-- The workflow row moves. -/
theorem turn_of_workflow {f f' : OxpullWorkflow} (hf : s.workflows w = some f)
    (hmove : f.status = .opened ∧ f' = { f with status := .sealed, totalCount := some f.nodeCount } ∨
      f.status = .sealed ∧ f' = { f with status := .complete } ∧ c = some w ∨
      f.status = .complete ∧ f' = { f with retired := true }) :
    Turn s { s with workflows := Function.update s.workflows w (some f') } p c where
  rows := .of_eq rfl
  tables := .moved w f f' rfl rfl hf rfl hmove
  passes := .of_eq rfl
  holder _ _ h _ := h
  owner _ _ h _ := h

theorem step_turn (h : s.step a = some s') : Turn s s' a.party a.completes := by
  cases a with
  | create w =>
    obtain ⟨hnone, h⟩ := Option.ite_none_right_eq_some.mp h
    obtain rfl := Option.some.inj h
    exact ⟨.of_eq rfl, .created w rfl rfl hnone rfl, .of_eq rfl, fun _ _ h _ => h, fun _ _ h _ => h⟩
  | sealOnce w =>
    simp only [step] at h
    split at h
    · next f hf =>
      obtain ⟨ho, h⟩ := Option.ite_none_right_eq_some.mp h
      obtain rfl := Option.some.inj h
      exact turn_of_workflow hf (.inl ⟨ho, rfl⟩)
    · cases h
  | complete w =>
    simp only [step] at h
    split at h
    · next f hf =>
      obtain ⟨⟨hsealed, -⟩, h⟩ := Option.ite_none_right_eq_some.mp h
      obtain rfl := Option.some.inj h
      exact turn_of_workflow hf (.inr (.inl ⟨hsealed, rfl, rfl⟩))
    · cases h
  | stamp w =>
    simp only [step] at h
    split at h
    · next f hf =>
      obtain ⟨hc, h⟩ := Option.ite_none_right_eq_some.mp h
      obtain rfl := Option.some.inj h
      exact turn_of_workflow hf (.inr (.inr ⟨hc, rfl⟩))
    · cases h
  | clear u =>
    obtain ⟨-, h⟩ := Option.ite_none_right_eq_some.mp h
    obtain rfl := Option.some.inj h
    exact turn_of_eq rfl rfl rfl rfl (.of_eq rfl) rfl rfl
  | claim u c =>
    obtain ⟨⟨hclaim, -, hfree⟩, h⟩ := Option.ite_none_right_eq_some.mp h
    obtain ⟨r', hb, rfl⟩ := Option.map_eq_some_iff.mp h
    obtain ⟨r, hr, hstep⟩ := Option.bind_eq_some_iff.mp hb
    have hrev : c.IsRevive = false := by cases c <;> first | rfl | cases hclaim
    refine turn_of_rows (rowTurn_put hr hstep hrev ?_ rfl) rfl rfl rfl (.of_eq rfl) rfl rfl
    simp [hfree]
  | row u c =>
    obtain ⟨⟨hplain, hfree⟩, h⟩ := Option.ite_none_right_eq_some.mp h
    obtain ⟨r', hb, rfl⟩ := Option.map_eq_some_iff.mp h
    obtain ⟨r, hr, hstep⟩ := Option.bind_eq_some_iff.mp hb
    have hrev : c.IsRevive = false := by cases c <;> first | rfl | cases hplain
    refine turn_of_rows (rowTurn_put hr hstep hrev ?_ rfl) rfl rfl rfl (.of_eq rfl) rfl rfl
    simp [hfree]
  | outcome u b held now ending =>
    obtain ⟨hfree, h⟩ := Option.ite_none_right_eq_some.mp h
    obtain ⟨r', hb, rfl⟩ := Option.map_eq_some_iff.mp h
    obtain ⟨r, hr, hstep⟩ := Option.bind_eq_some_iff.mp hb
    have hnone : ∀ y, s.holder u = some y → none = some y := by simp [hfree]
    split_ifs
    · have hkeys := (s.putRow u r').nodeKeys_recordNodeOutcome u r'.row.status r'.row.leaseEpoch
      obtain ⟨nodes, edges, heq⟩ :=
        recordNodeOutcome_frame (s.putRow u r') u r'.row.status r'.row.leaseEpoch
      rw [heq] at hkeys ⊢
      exact turn_of_rows (rowTurn_put hr hstep rfl hnone rfl) hkeys rfl rfl (.of_eq rfl) rfl rfl
    · exact turn_of_rows (rowTurn_put hr hstep rfl hnone rfl) rfl rfl rfl (.of_eq rfl) rfl rfl
  | pruneTask u =>
    simp only [step] at h
    split at h
    · obtain ⟨⟨-, hfree⟩, h⟩ := Option.ite_none_right_eq_some.mp h
      obtain rfl := Option.some.inj h
      refine turn_of_rows (fun t => ?_) rfl rfl rfl (.of_eq rfl) rfl rfl
      by_cases ht : t = u
      · subst ht
        exact .gone (Function.update_self ..) hfree
      · exact .same (Function.update_of_ne ht ..)
    · cases h
  | commitAdd x task call inherited now =>
    simp only [step] at h
    split at h
    · next w name upstream won hx =>
      split at h
      · next f hf =>
        obtain ⟨⟨hopen, hnew, -⟩, h⟩ := Option.ite_none_right_eq_some.mp h
        obtain rfl := Option.some.inj h
        refine ⟨fun t => ?_, ?_, passTurn_other rfl (by simp) (by simp), fun _ _ h _ => h,
          fun _ _ h _ => h⟩
        · by_cases ht : t = task
          · refine .born (ht ▸ hnew) ⟨(s.nextNode, w, task), ?_, ht.symm⟩
            exact List.mem_map.mpr ⟨_, List.mem_append_right _ (List.mem_singleton_self _), rfl⟩
          · exact .same (Function.update_of_ne ht ..)
        · refine .added w f task ?_ rfl hf hopen hnew List.mem_cons_self rfl
          exact List.map_append ..
      · cases h
    · cases h
  | commitRepairs x =>
    simp only [step] at h
    split at h
    · next records hx =>
      obtain rfl := Option.some.inj h
      exact turn_of_eq rfl (nodeKeys_recordMany _ _) rfl rfl (passTurn_other rfl (by simp) (by simp))
        rfl rfl
    · cases h
  | writeRecords x locked =>
    simp only [step] at h
    split at h
    · next records hx =>
      obtain rfl := Option.some.inj h
      exact turn_of_eq rfl (nodeKeys_recordMany _ _) rfl rfl (passTurn_other rfl (by simp) (by simp))
        rfl rfl
    · cases h
  | releaseMany x now =>
    simp only [step] at h
    split at h
    · next pairs hx =>
      obtain ⟨hfree, h⟩ := Option.ite_none_right_eq_some.mp h
      obtain rfl := Option.some.inj h
      obtain ⟨rows, won, heq⟩ := updateMany_frame s pairs fun e => .release e now
      have hrows : ∀ t, RowTurn s ((s.updateMany pairs fun e => .release e now).setPass x .idle)
          (some x) t := by
        refine rowTurn_many (fun _ => rfl) (fun p hp y hy => ?_) rfl
        rw [hfree p hp] at hy
        cases hy
      rw [heq] at hrows ⊢
      exact turn_of_rows hrows rfl rfl rfl (passTurn_other rfl (by simp) (by simp)) rfl rfl
    · cases h
  | readCancellable x w =>
    simp only [step] at h
    split at h
    · next f hx hf =>
      obtain ⟨⟨-, hfree⟩, h⟩ := Option.ite_none_right_eq_some.mp h
      obtain rfl := Option.some.inj h
      refine ⟨.of_eq rfl, .still rfl rfl rfl, passTurn_other rfl (by simp) (by simp),
        fun _ _ h _ => h, fun v y hy _ => ?_⟩
      have hne : v ≠ w := by
        rintro rfl
        rw [hfree] at hy
        cases hy
      exact (Function.update_of_ne hne ..).trans hy
    · cases h
  | lockDoomed x =>
    simp only [step] at h
    split at h
    · next w u found gone doomed hx =>
      split at h
      · obtain rfl := Option.some.inj h
        exact turn_of_eq rfl rfl rfl rfl (passTurn_other rfl (by simp) (by simp)) rfl rfl
      · obtain ⟨hfree, h⟩ := Option.ite_none_right_eq_some.mp h
        obtain rfl := Option.some.inj h
        refine ⟨.of_eq rfl, .still rfl rfl rfl, passTurn_other rfl (by simp) (by simp),
          fun t y hy hne => ?_, fun _ _ h _ => h⟩
        have hother : t ≠ u := by
          rintro rfl
          rcases hfree with hfree | hfree
          · rw [hfree] at hy
            cases hy
          · rw [hfree] at hy
            exact hne hy
        exact (Function.update_of_ne hother ..).trans hy
    · cases h
  | cancelMany x now =>
    simp only [step] at h
    split at h
    · next w doomed pairs hx =>
      obtain ⟨hfree, h⟩ := Option.ite_none_right_eq_some.mp h
      obtain rfl := Option.some.inj h
      have hrows : ∀ t, RowTurn s (s.updateMany pairs fun e => .cancelMany e now) (some x) t := by
        refine rowTurn_many (fun _ => rfl) (fun p hp y hy => ?_) rfl
        rcases hfree p hp with hnone | hown
        · rw [hnone] at hy
          cases hy
        · exact hown.symm.trans hy
      obtain ⟨rows, won, hframe⟩ := updateMany_frame s pairs fun e => .cancelMany e now
      obtain ⟨nodes, hlevel, hkeys⟩ := exists_level (s.updateMany pairs fun e => .cancelMany e now)
        pairs (pairs.filter fun p => s.status p.1 ≠ some .discarded ∧
          (s.updateMany pairs fun e => .cancelMany e now).status p.1 = some .discarded)
      rw [hlevel]
      rw [hframe] at hrows hkeys ⊢
      refine turn_of_unlock (fun t => ?_) hkeys rfl rfl (passTurn_other rfl (by simp) (by simp))
        rfl rfl
      rcases hrows t with hsame | ⟨r, r', hr, hr', hheld, hfinal, hwaits⟩ | ⟨hgone, hnone⟩ |
        ⟨hnew, k, hk, hkt⟩
      · exact .same hsame
      · exact .moved r r' hr hr' hheld hfinal hwaits
      · exact .gone hgone hnone
      · have hk' : k ∈ nodes.map (·.key) := by
          rw [hkeys]
          exact hk
        exact .born hnew ⟨k, hk', hkt⟩
    · cases h
  | classifyRetirable x w =>
    simp only [step] at h
    split at h
    · next f hx hf =>
      obtain ⟨⟨hst, -⟩, h⟩ := Option.ite_none_right_eq_some.mp h
      obtain rfl := Option.some.inj h
      exact turn_of_eq rfl rfl rfl rfl
        (passTurn_set rfl (.classified w 0 f (Function.update_self ..) hf hst)) rfl rfl
    · cases h
  | readChunk x size =>
    simp only [step] at h
    split at h
    · next w after hx =>
      obtain rfl := Option.some.inj h
      refine turn_of_eq rfl rfl rfl rfl
        (passTurn_set rfl (.read w after _ (Function.update_self ..) hx fun c hc => ?_)) rfl rfl
      obtain ⟨n, hn, rfl⟩ := List.mem_map.mp hc
      obtain ⟨hmem, hkeep⟩ := List.mem_filter.mp (List.mem_of_mem_take hn)
      rw [decide_eq_true_eq] at hkeep
      exact ⟨n, hmem, hkeep.1, rfl, rfl⟩
    · cases h
  | retireChunk x =>
    simp only [step] at h
    split at h
    · next w c chunk hx =>
      obtain ⟨-, h⟩ := Option.ite_none_right_eq_some.mp h
      obtain rfl := Option.some.inj h
      refine ⟨.of_eq rfl, .retired x w (c :: chunk) _ hx rfl rfl rfl fun n _ hgone => ?_,
        passTurn_set rfl (.retired w _ _ (Function.update_self ..) hx), fun _ _ h _ => h,
        fun _ _ h _ => h⟩
      simp only [decide_eq_false_iff_not, not_not] at hgone
      obtain ⟨c', hc', hpk⟩ := List.mem_map.mp hgone.1
      obtain ⟨hmem, hgoing⟩ := List.mem_filter.mp hc'
      rw [decide_eq_true_eq] at hgoing
      exact ⟨c', hmem, hpk, hgoing.1⟩
    · cases h
  | abort x =>
    obtain rfl := Option.some.inj h
    exact turn_of_unlock (.of_eq rfl) rfl rfl rfl (passTurn_other rfl (by simp) (by simp)) rfl rfl
  | _ =>
    simp only [step] at h
    repeat' split at h
    all_goals cases h
    all_goals
      exact turn_of_eq rfl rfl rfl rfl (passTurn_other rfl (by simp) (by simp)) rfl rfl

/-- The tasks of the workflow's nodes. -/
def tasksOf (s : WorkflowState) (w : ℕ) : List TaskId :=
  (s.nodeKeys.filter (·.2.1 = w)).map (·.2.2)

def Completed (s : WorkflowState) (w : ℕ) : Prop :=
  ∃ f, s.workflows w = some f ∧ f.status = .complete

/-- A workflow counts its nodes until it is COMPLETE, and only then are they deleted. -/
structure CountInv (s : WorkflowState) : Prop where
  distinct : (s.nodeKeys.map (·.2.2)).Nodup
  count : ∀ w f, s.workflows w = some f → f.status ≠ .complete →
    f.nodeCount = (s.tasksOf w).length
  total : ∀ w f, s.workflows w = some f → f.status ≠ .opened → f.totalCount = some f.nodeCount
  absent : ∀ w, s.workflows w = none → s.tasksOf w = []
  retiring : ∀ x w after, s.passes x = .retiring w after → s.Completed w
  chunked : ∀ x w chunk, s.passes x = .chunked w chunk → s.Completed w ∧
    ∀ c ∈ chunk, c.1 < s.nextNode ∧ ∀ k ∈ s.nodeKeys, k.1 = c.1 → k.2 = (w, c.2.1)

theorem mem_tasksOf : t ∈ s.tasksOf w ↔ ∃ n ∈ s.nodes, n.workflow = w ∧ n.task = t := by
  simp [tasksOf, nodeKeys, OxpullWorkflowNode.key]

theorem tasksOf_eq (s : WorkflowState) (w : ℕ) :
    s.tasksOf w = (s.nodes.filter (·.workflow = w)).map (·.task) := by
  unfold tasksOf nodeKeys
  rw [List.filter_map, List.map_map]
  rfl

theorem CountInv.nodup (hi : s.CountInv) (w : ℕ) : (s.tasksOf w).Nodup :=
  hi.distinct.sublist (List.filter_sublist.map _)

theorem count_of_start (h : s.Start) : s.CountInv := by
  obtain ⟨-, -, hw, -, hn, -, -, -, hp, -⟩ := h
  have hkeys : s.nodeKeys = [] := by simp [nodeKeys, hn]
  refine ⟨by simp [hkeys], ?_, ?_, by simp [tasksOf, hkeys], ?_, ?_⟩
  · simp [hw]
  · simp [hw]
  · simp [hp]
  · simp [hp]

/-- Of the row of a COMPLETE workflow only the mark that it is retired is ever written. -/
theorem Turn.complete_row {f : OxpullWorkflow} (h : Turn s s' p c) (hf : s.workflows w = some f)
    (hst : f.status = .complete) :
    ∃ retired, s'.workflows w = some { f with retired := retired } := by
  have hsame : ∀ v f', v ≠ w → s'.workflows = Function.update s.workflows v f' →
      ∃ retired, s'.workflows w = some { f with retired := retired } := by
    intro v f' hv hw
    refine ⟨f.retired, ?_⟩
    rw [hw, Function.update_of_ne hv.symm]
    exact hf
  cases h.tables with
  | still _ hw _ => exact ⟨f.retired, hw ▸ hf⟩
  | created v _ _ hnone hw =>
    refine hsame v _ ?_ hw
    rintro rfl
    rw [hnone] at hf
    cases hf
  | moved v g g' _ _ hg hw hmove =>
    by_cases hv : v = w
    · subst hv
      obtain rfl := Option.some.inj (hf.symm.trans hg)
      rcases hmove with ⟨ho, -⟩ | ⟨hs, -⟩ | ⟨-, rfl⟩
      · rw [hst] at ho
        cases ho
      · rw [hst] at hs
        cases hs
      · exact ⟨true, by rw [hw]; exact Function.update_self ..⟩
    · exact hsame v _ hv hw
  | added v g task _ _ hg hopen _ _ hw =>
    refine hsame v _ ?_ hw
    rintro rfl
    obtain rfl := Option.some.inj (hf.symm.trans hg)
    rw [hst] at hopen
    cases hopen
  | retired _ _ _ _ _ _ hw _ _ => exact ⟨f.retired, hw ▸ hf⟩

theorem Turn.completed (h : Turn s s' p c) (hc : s.Completed w) : s'.Completed w := by
  obtain ⟨f, hf, hst⟩ := hc
  obtain ⟨_, hf'⟩ := h.complete_row hf hst
  exact ⟨_, hf', hst⟩

/-- No node joins a workflow that is not OPEN. -/
theorem Turn.tasksOf_sublist {f : OxpullWorkflow} (h : Turn s s' p c) (hf : s.workflows w = some f)
    (hst : f.status ≠ .opened) : (s'.tasksOf w).Sublist (s.tasksOf w) := by
  have hsame : s'.nodeKeys = s.nodeKeys → (s'.tasksOf w).Sublist (s.tasksOf w) := by
    intro hn
    unfold tasksOf
    rw [hn]
  cases h.tables with
  | still hn _ _ | created _ hn _ _ _ | moved _ _ _ hn _ _ _ _ => exact hsame hn
  | added v g task hn _ hg hopen _ _ _ =>
    have hv : v ≠ w := by
      rintro rfl
      obtain rfl := Option.some.inj (hf.symm.trans hg)
      exact hst hopen
    unfold tasksOf
    rw [hn, List.filter_append]
    simp [hv]
  | retired _ v chunk keep _ hn =>
    rw [tasksOf_eq, tasksOf_eq, hn]
    exact (List.filter_sublist.filter _).map _

theorem Turn.nextNode_le (h : Turn s s' p c) : s.nextNode ≤ s'.nextNode := by
  cases h.tables <;> omega

/-- A node is an old one or has a new key. -/
theorem Turn.nodeKeys (h : Turn s s' p c) :
    ∀ k ∈ s'.nodeKeys, k ∈ s.nodeKeys ∨ s.nextNode ≤ k.1 := by
  intro k hk
  cases h.tables with
  | added v g task hn =>
    rw [hn] at hk
    rcases List.mem_append.mp hk with hk | hk
    · exact .inl hk
    · rw [List.mem_singleton.mp hk]
      exact .inr le_rfl
  | retired _ _ _ keep _ hn =>
    obtain ⟨n, hmem, rfl⟩ := List.mem_map.mp hk
    rw [hn] at hmem
    exact .inl (List.mem_map_of_mem (List.mem_filter.mp hmem).1)
  | still hn _ _ | created _ hn _ _ _ | moved _ _ _ hn _ _ _ _ => exact .inl (hn ▸ hk)

/-- Of the nodes of a workflow that is not COMPLETE, a prune deletes none. -/
theorem CountInv.tasksOf_filter (hi : s.CountInv)
    {chunk : List (ℕ × TaskId × Option Status)} {keep : OxpullWorkflowNode → Bool} {v : ℕ}
    (hx : s.passes x = .chunked v chunk) (hn : s'.nodes = s.nodes.filter keep)
    (hkeep : ∀ n ∈ s.nodes, keep n = false → ∃ c ∈ chunk, c.1 = n.pk) (hw : v ≠ w) :
    s'.tasksOf w = s.tasksOf w := by
  rw [tasksOf_eq, tasksOf_eq, hn, List.filter_filter]
  congr 1
  refine List.filter_congr fun n hmem => ?_
  cases hk : keep n with
  | true => simp
  | false =>
    obtain ⟨c, hc, hpk⟩ := hkeep n hmem hk
    have hkey := ((hi.chunked x v chunk hx).2 c hc).2 n.key (List.mem_map_of_mem hmem) hpk.symm
    have hv : n.workflow = v := (Prod.mk.inj hkey).1
    simp [hv, hw]

theorem CountInv.tasksOf_turn {f : OxpullWorkflow} (hi : s.CountInv) (h : Turn s s' p c)
    (hf : s.workflows w = some f) (hst : f.status = .sealed) : s'.tasksOf w = s.tasksOf w := by
  have hsame : s'.nodeKeys = s.nodeKeys → s'.tasksOf w = s.tasksOf w := by
    intro hn
    unfold tasksOf
    rw [hn]
  cases h.tables with
  | still hn _ _ | created _ hn _ _ _ | moved _ _ _ hn _ _ _ _ => exact hsame hn
  | added v g task hn _ hg hopen _ _ _ =>
    have hv : v ≠ w := by
      rintro rfl
      obtain rfl := Option.some.inj (hf.symm.trans hg)
      rw [hst] at hopen
      cases hopen
    unfold tasksOf
    rw [hn, List.filter_append]
    simp [hv]
  | retired x v chunk keep hx hn _ _ hkeep =>
    refine hi.tasksOf_filter hx hn (fun n hmem hk => ?_) ?_
    · obtain ⟨c, hc, hpk, -⟩ := hkeep n hmem hk
      exact ⟨c, hc, hpk⟩
    rintro rfl
    obtain ⟨g, hg, hc⟩ := (hi.chunked x v chunk hx).1
    obtain rfl := Option.some.inj (hf.symm.trans hg)
    rw [hst] at hc
    cases hc

/-- The row of a SEALED workflow is written by its completion and nothing else. -/
theorem Turn.sealed {f : OxpullWorkflow} (h : Turn s s' p c) (hf : s.workflows w = some f)
    (hst : f.status = .sealed) :
    s'.workflows w = some f ∨ c = some w ∧ s'.workflows w = some { f with status := .complete } := by
  have hsame : ∀ v f', v ≠ w → s'.workflows = Function.update s.workflows v f' →
      s'.workflows w = some f := by
    intro v f' hv hw
    rw [hw, Function.update_of_ne hv.symm]
    exact hf
  cases h.tables with
  | still _ hw _ | retired _ _ _ _ _ _ hw _ _ => exact .inl (hw ▸ hf)
  | created v _ _ hnone hw =>
    refine .inl (hsame v _ ?_ hw)
    rintro rfl
    rw [hnone] at hf
    cases hf
  | added v g task _ _ hg hopen _ _ hw =>
    refine .inl (hsame v _ ?_ hw)
    rintro rfl
    obtain rfl := Option.some.inj (hf.symm.trans hg)
    rw [hst] at hopen
    cases hopen
  | moved v g g' _ _ hg hw hmove =>
    by_cases hv : v = w
    · subst hv
      obtain rfl := Option.some.inj (hf.symm.trans hg)
      rcases hmove with ⟨ho, -⟩ | ⟨-, rfl, hc⟩ | ⟨hcomplete, -⟩
      · rw [hst] at ho
        cases ho
      · exact .inr ⟨hc, by rw [hw]; exact Function.update_self ..⟩
      · rw [hst] at hcomplete
        cases hcomplete
    · exact .inl (hsame v _ hv hw)

theorem CountInv.turn (ho : s.OrderInv) (hr : s.RecordInv) (hi : s.CountInv)
    (h : Turn s s' p c) : s'.CountInv := by
  have hchunk : ∀ x w chunk, s.passes x = .chunked w chunk → s'.Completed w ∧
      ∀ c ∈ chunk, c.1 < s'.nextNode ∧ ∀ k ∈ s'.nodeKeys, k.1 = c.1 → k.2 = (w, c.2.1) := by
    intro x w chunk hx
    obtain ⟨hc, hkeys⟩ := hi.chunked x w chunk hx
    refine ⟨h.completed hc, fun c hmem => ⟨(hkeys c hmem).1.trans_le h.nextNode_le, ?_⟩⟩
    intro k hk hpk
    rcases h.nodeKeys k hk with hold | hnew
    · exact (hkeys c hmem).2 k hold hpk
    · have hlt := (hkeys c hmem).1
      omega
  have hretiring : ∀ x w after, s'.passes x = .retiring w after → s'.Completed w := by
    intro x w after hx
    cases h.passes x with
    | same hsame => exact h.completed (hi.retiring x w after (hsame ▸ hx))
    | other hno _ => exact absurd hx (hno w after)
    | classified v n f hv hf hc =>
      rw [hv] at hx
      cases hx
      exact h.completed ⟨f, hf, hc⟩
    | read v n chunk hv =>
      rw [hv] at hx
      cases hx
    | retired v n chunk hv hp =>
      rw [hv] at hx
      cases hx
      exact h.completed (hi.chunked x w chunk hp).1
  have hchunked : ∀ x w chunk, s'.passes x = .chunked w chunk → s'.Completed w ∧
      ∀ c ∈ chunk, c.1 < s'.nextNode ∧ ∀ k ∈ s'.nodeKeys, k.1 = c.1 → k.2 = (w, c.2.1) := by
    intro x w chunk hx
    cases h.passes x with
    | same hsame => exact hchunk x w chunk (hsame ▸ hx)
    | other _ hno => exact absurd hx (hno w chunk)
    | classified v n f hv =>
      rw [hv] at hx
      cases hx
    | read v n chunk' hv hp hread =>
      rw [hv] at hx
      cases hx
      refine ⟨h.completed (hi.retiring x w n hp), fun c hc => ?_⟩
      obtain ⟨m, hm, hw, hpk, ht⟩ := hread c hc
      have hlt := ho.nodeKeys m hm
      refine ⟨?_, fun k hk hkc => ?_⟩
      · have hle := h.nextNode_le
        omega
      · rcases h.nodeKeys k hk with hold | hnew
        · obtain ⟨m', hm', rfl⟩ := List.mem_map.mp hold
          have htask : m'.task = m.task := ho.nodeKey m' hm' m hm (hkc.trans hpk.symm)
          obtain rfl := hr.node m' hm' m hm htask
          exact Prod.ext hw ht
        · omega
    | retired v n chunk' hv =>
      rw [hv] at hx
      cases hx
  have hstill : s'.nodeKeys = s.nodeKeys → ∀ v, s'.tasksOf v = s.tasksOf v := by
    intro hn v
    unfold tasksOf
    rw [hn]
  cases h.tables with
  | still hn hw hk =>
    refine ⟨hn ▸ hi.distinct, ?_, ?_, ?_, hretiring, hchunked⟩
    · intro v f hf hst
      rw [hstill hn]
      exact hi.count v f (hw ▸ hf) hst
    · exact fun v f hf => hi.total v f (hw ▸ hf)
    · intro v hv
      rw [hstill hn]
      exact hi.absent v (hw ▸ hv)
  | created v hn hk hnone hw =>
    refine ⟨hn ▸ hi.distinct, ?_, ?_, ?_, hretiring, hchunked⟩
    · intro u f hf hst
      rw [hstill hn]
      rw [hw, Function.update_apply] at hf
      split_ifs at hf with hu
      · obtain rfl := Option.some.inj hf
        rw [hu, hi.absent v hnone]
        rfl
      · exact hi.count u f hf hst
    · intro u f hf hst
      rw [hw, Function.update_apply] at hf
      split_ifs at hf
      · obtain rfl := Option.some.inj hf
        exact absurd rfl hst
      · exact hi.total u f hf hst
    · intro u hu
      rw [hstill hn]
      rw [hw, Function.update_apply] at hu
      split_ifs at hu
      exact hi.absent u hu
  | moved v g g' hn hk hg hw hmove =>
    refine ⟨hn ▸ hi.distinct, ?_, ?_, ?_, hretiring, hchunked⟩
    · intro u f hf hst
      rw [hstill hn]
      rw [hw, Function.update_apply] at hf
      split_ifs at hf with hu
      · obtain rfl := Option.some.inj hf
        subst hu
        rcases hmove with ⟨hopen, rfl⟩ | ⟨-, rfl, -⟩ | ⟨hc, rfl⟩
        · exact hi.count u g hg (by simp [hopen])
        · exact absurd rfl hst
        · exact absurd hc hst
      · exact hi.count u f hf hst
    · intro u f hf hst
      rw [hw, Function.update_apply] at hf
      split_ifs at hf with hu
      · obtain rfl := Option.some.inj hf
        subst hu
        rcases hmove with ⟨hopen, rfl⟩ | ⟨hs, rfl, -⟩ | ⟨hc, rfl⟩
        · rfl
        · exact hi.total u g hg (by simp [hs])
        · exact hi.total u g hg (by simp [hc])
      · exact hi.total u f hf hst
    · intro u hu
      rw [hstill hn]
      rw [hw, Function.update_apply] at hu
      split_ifs at hu
      exact hi.absent u hu
  | added v g task hn hk hg hopen hnew hused hw =>
    have htasks : ∀ u, s'.tasksOf u = s.tasksOf u ++ if v = u then [task] else [] := by
      intro u
      unfold tasksOf
      rw [hn, List.filter_append, List.map_append]
      by_cases hu : v = u <;> simp [hu]
    refine ⟨?_, ?_, ?_, ?_, hretiring, hchunked⟩
    · rw [hn, List.map_append]
      refine List.nodup_append.mpr ⟨hi.distinct, by simp, ?_⟩
      intro t ht u hu heq
      obtain ⟨k, hk, rfl⟩ := List.mem_map.mp ht
      obtain ⟨n, hn', rfl⟩ := List.mem_map.mp hk
      have htask : n.task = task := heq.trans (by simpa using hu)
      exact hnew (htask ▸ hr.nodeUsed n hn')
    · intro u f hf hst
      rw [htasks, List.length_append]
      rw [hw, Function.update_apply] at hf
      split_ifs at hf with hu
      · obtain rfl := Option.some.inj hf
        subst hu
        rw [if_pos rfl]
        have hcount := hi.count u g hg (by simp [hopen])
        simp [hcount]
      · rw [if_neg (Ne.symm hu)]
        exact hi.count u f hf hst
    · intro u f hf hst
      rw [hw, Function.update_apply] at hf
      split_ifs at hf
      · obtain rfl := Option.some.inj hf
        exact absurd hopen hst
      · exact hi.total u f hf hst
    · intro u hu
      rw [htasks]
      rw [hw, Function.update_apply] at hu
      split_ifs at hu with hv
      rw [if_neg (Ne.symm hv), hi.absent u hu]
      rfl
  | retired x v chunk keep hx hn hw hk hkeep =>
    have hkept : ∀ n ∈ s.nodes, keep n = false → ∃ c ∈ chunk, c.1 = n.pk := by
      intro n hmem hk
      obtain ⟨c, hc, hpk, -⟩ := hkeep n hmem hk
      exact ⟨c, hc, hpk⟩
    have hother : ∀ u, v ≠ u → s'.tasksOf u = s.tasksOf u :=
      fun u hu => hi.tasksOf_filter hx hn hkept hu
    obtain ⟨g, hg, hc⟩ := (hi.chunked x v chunk hx).1
    refine ⟨?_, ?_, ?_, ?_, hretiring, hchunked⟩
    · have hsub : List.Sublist s'.nodeKeys s.nodeKeys := by
        unfold WorkflowState.nodeKeys
        rw [hn]
        exact List.filter_sublist.map _
      exact hi.distinct.sublist (hsub.map _)
    · intro u f hf hst
      rw [hw] at hf
      have hu : v ≠ u := by
        rintro rfl
        obtain rfl := Option.some.inj (hf.symm.trans hg)
        exact hst hc
      rw [hother u hu]
      exact hi.count u f hf hst
    · exact fun u f hf => hi.total u f (hw ▸ hf)
    · intro u hu
      rw [hw] at hu
      have hne : v ≠ u := by
        rintro rfl
        rw [hg] at hu
        cases hu
      rw [hother u hne]
      exact hi.absent u hu

end WorkflowState

end DjangoOx
