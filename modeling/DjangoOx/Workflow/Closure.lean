import DjangoOx.Workflow.EdgeTurn
import DjangoOx.Workflow.Level
import DjangoOx.Workflow.Settling

/-! Ticks of the reconciler over a SEALED workflow, with no other writer: they close every cone. -/
namespace DjangoOx

open Machine

/-- The steps of the tick that are no part of a level: the edge and node pages of the backstop, its
releases, and the record repairs of the completion. -/
def WorkflowAction.Backstop : WorkflowAction → Bool
  | .readEdgesInto _ _ | .readEdgePage _ _ _ _ _ | .proveRows _ _ | .proveRecords _ _
  | .markProven _ _ | .readRepairs _ _ | .commitRepairs _ | .readNodes _ _ | .readNodePage _ _ _ _ _
  | .readNodeRows _ _ | .writeRecords _ _ | .startRelease _ _ | .readHeld _ | .readWaiting _
  | .releaseMany _ _ | .abort _ => true
  | _ => false

namespace WorkflowState

variable {s s' s'' : WorkflowState} {x w n : ℕ} {t u : TaskId} {p : WorkflowPass} {now : ℤ}

/-- No locks, and every record that a pass has read is of a row that is there. -/
structure Steady (s : WorkflowState) : Prop where
  holder : ∀ t, s.holder t = none
  owner : ∀ w, s.owner w = none
  read : ∀ x, ∀ r ∈ (s.passes x).records, s.status r.2.1 ≠ none

/-- An edge under a mark that it had, or a new one. -/
structure Marks (e e' : OxpullWorkflowEdge) : Prop where
  workflow : e'.workflow = e.workflow
  upstream : e'.upstream = e.upstream
  downstream : e'.downstream = e.downstream
  satisfied : e.satisfied = true → e'.satisfied = true

/-- What the backstop leaves as it was: it marks, releases, and records rows that are there. -/
structure Kept (s s' : WorkflowState) : Prop where
  steady : s'.Steady
  workflows : s'.workflows = s.workflows
  succeeded : s'.succeeded = s.succeeded
  edges : ∃ f, s'.edges = s.edges.map f ∧ ∀ e, Marks e (f e)
  status : ∀ t, s'.status t = s.status t ∨
    s.status t = some .waiting ∧ s'.status t = some .ready
  recorded : ∀ t, s.status t = none → s'.recorded t = s.recorded t

theorem Quiet.steady (h : s.Quiet) : s.Steady := by
  obtain ⟨hp, hh, ho⟩ := h
  refine ⟨hh, ho, fun x r hr => ?_⟩
  rw [hp x] at hr
  cases hr

theorem Marks.refl (e : OxpullWorkflowEdge) : Marks e e :=
  ⟨rfl, rfl, rfl, id⟩

theorem Marks.trans {e e' e'' : OxpullWorkflowEdge} (h : Marks e e') (h' : Marks e' e'') :
    Marks e e'' :=
  ⟨h'.workflow.trans h.workflow, h'.upstream.trans h.upstream, h'.downstream.trans h.downstream,
    fun hsat => h'.satisfied (h.satisfied hsat)⟩

theorem Marks.mark (e : OxpullWorkflowEdge) {q : Prop} [Decidable q] :
    Marks e (if q then { e with satisfied := true } else e) := by
  split_ifs
  · exact ⟨rfl, rfl, rfl, fun _ => rfl⟩
  · exact .refl e

theorem Kept.refl (h : s.Steady) : s.Kept s :=
  ⟨h, rfl, rfl, ⟨id, by simp, .refl⟩, fun _ => .inl rfl, fun _ _ => rfl⟩

theorem Kept.trans (h : s.Kept s') (h' : s'.Kept s'') : s.Kept s'' := by
  obtain ⟨f, hf, hmarks⟩ := h.edges
  obtain ⟨g, hg, hmarks'⟩ := h'.edges
  refine ⟨h'.steady, h'.workflows.trans h.workflows, h'.succeeded.trans h.succeeded,
    ⟨g ∘ f, by rw [hg, hf, List.map_map], fun e => (hmarks e).trans (hmarks' (f e))⟩,
    fun t => ?_, fun t hgone => ?_⟩
  · have h₁ := h.status t
    have h₂ := h'.status t
    rcases h₁ with h₁ | ⟨hw, hr⟩ <;> rcases h₂ with h₂ | ⟨hw', hr'⟩
    · exact .inl (h₂.trans h₁)
    · exact .inr ⟨h₁ ▸ hw', hr'⟩
    · exact .inr ⟨hw, h₂.trans hr⟩
    · exact .inr ⟨hw, hr'⟩
  · have hgone' : s'.status t = none := by
      rcases h.status t with h₁ | ⟨hw, -⟩
      · exact h₁.trans hgone
      · simp [hgone] at hw
    exact (h'.recorded t hgone').trans (h.recorded t hgone)

/-- A step that reads, for a pass. -/
theorem Kept.pass (h : s.Steady) (hp : ∀ r ∈ p.records, s.status r.2.1 ≠ none) :
    s.Kept (s.setPass x p) := by
  refine ⟨⟨h.holder, h.owner, fun y r hr => ?_⟩, rfl, rfl, ⟨id, by simp [setPass], .refl⟩,
    fun _ => .inl rfl, fun _ _ => rfl⟩
  rw [passes_setPass] at hr
  split_ifs at hr
  · exact hp r hr
  · exact h.read y r hr

theorem Kept.unlock (h : s.Steady) : s.Kept (s.unlock x) := by
  have hh : (s.unlock x).holder = s.holder := by
    funext t
    simp [WorkflowState.unlock, h.holder]
  have ho : (s.unlock x).owner = s.owner := by
    funext w
    simp [WorkflowState.unlock, h.owner]
  exact ⟨⟨hh ▸ h.holder, ho ▸ h.owner, h.read⟩, rfl, rfl, ⟨id, by simp [WorkflowState.unlock], .refl⟩,
    fun _ => .inl rfl, fun _ _ => rfl⟩

theorem Kept.mark (h : s.Steady) {f : OxpullWorkflowEdge → OxpullWorkflowEdge}
    (hf : ∀ e, Marks e (f e)) : s.Kept { s with edges := s.edges.map f } :=
  ⟨⟨h.holder, h.owner, h.read⟩, rfl, rfl, ⟨f, rfl, hf⟩, fun _ => .inl rfl, fun _ _ => rfl⟩

/-- Records are written, and none of a row that is gone. -/
theorem Kept.renode (h : s.Steady) {f : OxpullWorkflowNode → OxpullWorkflowNode}
    (htask : ∀ n, (f n).task = n.task)
    (hf : ∀ n ∈ s.nodes, s.status n.task = none → f n = n) :
    s.Kept { s with nodes := s.nodes.map f } := by
  refine ⟨⟨h.holder, h.owner, h.read⟩, rfl, rfl, ⟨id, by simp, .refl⟩, fun _ => .inl rfl,
    fun t hgone => ?_⟩
  unfold WorkflowState.recorded nodeOf
  dsimp only
  rw [List.find?_map]
  have hpred : ((fun n : OxpullWorkflowNode => decide (n.task = t)) ∘ f) =
      fun n => decide (n.task = t) := by
    funext n
    simp [htask]
  rw [hpred]
  cases hfind : s.nodes.find? (·.task = t) with
  | none => rfl
  | some n =>
    have hn : n.task = t := by simpa using List.find?_some hfind
    have hsame := hf n (List.mem_of_find?_eq_some hfind) (hn ▸ hgone)
    simp [hsame]

theorem Kept.recordMany (h : s.Steady) {records : List (ℕ × TaskId × Status × ℕ)}
    (hok : ∀ r ∈ records, s.RecordOk r) (hthere : ∀ r ∈ records, s.status r.2.1 ≠ none) :
    s.Kept { s with nodes := DjangoOx.recordMany s.nodes (records.map recordFields) } := by
  obtain ⟨f, hf, hcases⟩ := exists_recordMany s.nodes (records.map recordFields)
  rw [hf]
  refine .renode h (fun n => ?_) fun n hn hgone => ?_
  · rcases hcases n with heq | ⟨st, e, -, heq⟩ <;> simp [heq]
  · rcases hcases n with heq | ⟨st, e, hmem, -⟩
    · exact heq
    · obtain ⟨r, hr, hfields⟩ := List.mem_map.mp hmem
      have hpk : r.1 = n.pk := congrArg Prod.fst hfields
      have htask := (hok r hr).2.1 n hn hpk.symm
      exact absurd (htask ▸ hgone) (hthere r hr)

/-- A release moves a WAITING row, and to READY. -/
theorem Kept.release (h : s.Steady) (pairs : List (TaskId × ℕ)) :
    s.Kept (s.updateMany pairs fun e => .release e now) := by
  refine updateMany_induction (P := s.Kept) s (.refl h) fun s' hs' q hq => hs'.trans ?_
  rcases update_cases s' q.1 (.release q.2 now) with heq | ⟨r, r', hrow, hstep, heq⟩
  · rw [heq]
    exact .refl hs'.steady
  · obtain ⟨new, hnew, rfl⟩ := Option.map_eq_some_iff.mp hstep
    obtain ⟨⟨hwait, -⟩, rfl⟩ := OxTask.release_eq_some.mp hnew
    have hstatus : s'.status q.1 = some .waiting := by
      simp [WorkflowState.status, hrow, hwait]
    rw [heq]
    refine ⟨⟨hs'.steady.holder, hs'.steady.owner, fun x r hr => ?_⟩, rfl, rfl,
      ⟨id, by simp [putRow], .refl⟩, fun t => ?_, fun _ _ => rfl⟩
    · rw [status_putRow]
      split_ifs
      · simp
      · exact hs'.steady.read x r hr
    · rw [status_putRow]
      split_ifs with ht
      · exact .inr ⟨ht ▸ hstatus, rfl⟩
      · exact .inl rfl

theorem backstop_kept {a : WorkflowAction} (ho : s.OrderInv) (hs : s.Steady)
    (ha : a.Backstop = true) (h : step s a = some s') : s.Kept s' := by
  cases a with
  | markProven x locked =>
    simp only [step] at h
    split at h
    · next edges proven hx =>
      obtain rfl := Option.some.inj h
      exact (Kept.mark hs fun e => .mark e).trans
        (.pass (x := x) (p := .idle) ⟨hs.holder, hs.owner, hs.read⟩ (by simp [WorkflowPass.records]))
    · cases h
  | readRepairs x w =>
    simp only [step] at h
    split at h
    · obtain rfl := Option.some.inj h
      refine .pass hs fun r hr => ?_
      obtain ⟨n, -, hsome⟩ := List.mem_filterMap.mp hr
      obtain ⟨⟨st, e⟩, hrow, rfl⟩ := Option.map_eq_some_iff.mp hsome
      simp [status_of_row hrow]
    · cases h
  | commitRepairs x =>
    simp only [step] at h
    split at h
    · next records hx =>
      obtain rfl := Option.some.inj h
      have hok : s.PassOk (.repairing records) := hx ▸ ho.passes x
      have hthere : ∀ r ∈ records, s.status r.2.1 ≠ none := fun r hr =>
        hs.read x r (by rw [hx]; exact hr)
      have hk := Kept.recordMany hs hok hthere
      have hk' := Kept.mark hk.steady
        (f := fun e => if e.upstream ∈ (records.filter fun r => r.2.2.1 = .successful).map (·.2.1)
          then { e with satisfied := true } else e) fun e => .mark e
      exact (hk.trans hk').trans
        (.pass (x := x) (p := .idle) hk'.steady (by simp [WorkflowPass.records]))
    · cases h
  | readNodeRows x size =>
    simp only [step] at h
    split at h
    · next nodes records hx =>
      obtain rfl := Option.some.inj h
      refine .pass hs fun r hr => ?_
      rcases List.mem_append.mp hr with hr | hr
      · exact hs.read x r (by rw [hx]; exact hr)
      · obtain ⟨n, -, hsome⟩ := List.mem_filterMap.mp hr
        unfold wantedRecord at hsome
        split at hsome
        · next st e hrow =>
          obtain ⟨-, hsome⟩ := Option.ite_none_right_eq_some.mp hsome
          obtain rfl := Option.some.inj hsome
          simp [status_of_row hrow]
        · cases hsome
    · cases h
  | writeRecords x locked =>
    simp only [step] at h
    split at h
    · next records hx =>
      obtain rfl := Option.some.inj h
      have hok : s.PassOk (.looking [] records) := hx ▸ ho.passes x
      have hk : s.Kept { s with
          nodes := recordMany s.nodes ((records.filter (·.1 ∈ locked)).map recordFields) } :=
        .recordMany hs (fun r hr => hok.2 r (List.mem_filter.mp hr).1)
          fun r hr => hs.read x r (by rw [hx]; exact (List.mem_filter.mp hr).1)
      exact hk.trans (.pass (x := x) (p := .idle) hk.steady (by simp [WorkflowPass.records]))
    · cases h
  | releaseMany x now =>
    simp only [step] at h
    split at h
    · next pairs hx =>
      obtain ⟨-, h⟩ := Option.ite_none_right_eq_some.mp h
      obtain rfl := Option.some.inj h
      have hk : s.Kept (s.updateMany pairs fun e => .release e now) := .release hs pairs
      exact hk.trans (.pass hk.steady (by simp [WorkflowPass.records]))
    · cases h
  | abort x =>
    obtain rfl := Option.some.inj h
    have hk := Kept.pass (x := x) (p := .idle) hs (by simp [WorkflowPass.records])
    exact hk.trans (.unlock hk.steady)
  | readEdgesInto x tasks | readEdgePage x w after upTo limit | proveRows x size
  | proveRecords x size | readNodes x tasks | readNodePage x w after upTo limit
  | startRelease x chunk | readHeld x | readWaiting x =>
    simp only [step] at h
    repeat' split at h
    all_goals cases h
    all_goals exact .pass hs (by simp [WorkflowPass.records])
  | _ => cases ha

/-- What a closed cone rests on, whoever writes the outcomes: what has succeeded has no unmarked edge
into it. -/
structure ConeInv (s : WorkflowState) : Prop where
  order : s.OrderInv
  records : s.SettledInv
  wonUsed : ∀ t ∈ s.succeeded, t ∈ s.used
  wonOpen : ∀ t ∈ s.succeeded, s.Open t

theorem cone_of_start (h : s.Start) : s.ConeInv := by
  refine ⟨order_of_start h, settled_of_start h, ?_, ?_⟩
  all_goals
    obtain ⟨-, -, -, -, -, -, -, -, -, -, -, -, hs⟩ := h
    simp [hs]

theorem step_cone {a : WorkflowAction} (hi : s.ConeInv) (h : step s a = some s') :
    s'.ConeInv := by
  have ho' := step_order hi.order h
  refine ⟨ho', step_settled hi.records h, fun t ht => ?_, fun t ht => ?_⟩
  · rcases succeeded_step h ht with hold | hnow
    · exact used_step h (hi.wonUsed t hold)
    · refine ho'.rowsUsed t fun hnone => ?_
      simp [status, hnone] at hnow
  · rcases succeeded_step h ht with hold | hnow
    · intro e' he' hdown
      rcases (step_edgeTurn hi.order h).edges e' he' with ⟨e, he, -, -, hsame, hsat⟩ | ⟨x, hadds, -⟩
      · exact hsat (hi.wonOpen t hold e he (hsame.symm.trans hdown))
      · -- a task that has succeeded is no new node
        rw [hdown] at hadds
        exact absurd (hi.wonUsed t hold) (unused_of_adds hadds h)
    · exact ho'.started t .successful hnow (by simp) (by simp)

theorem ConeInv.run {as : List WorkflowAction} (hi : s.ConeInv)
    (h : workflowSystem.run s as = some s') : s'.ConeInv := by
  induction as generalizing s with
  | nil => exact Option.some.inj h ▸ hi
  | cons a as ih =>
    obtain ⟨s₁, hs, h⟩ := Option.bind_eq_some_iff.mp h
    exact ih (step_cone hi hs) h

/-- `MAX_CANCEL_PASSES` -/
def maxCancelPasses : ℕ := 64

/-- One run of `_cancel_one_level`. -/
def Level (w : ℕ) (s s' : WorkflowState) : Prop :=
  ∃ x now, workflowSystem.run s (s.levelActions x w now) = some s'

/-- Some row became DISCARDED. -/
def Moved (s s' : WorkflowState) : Prop :=
  ∃ t, s.status t ≠ some .discarded ∧ s'.status t = some .discarded

/-- The levels of `_cancel_unreachable`, of which it may still run `n`. -/
inductive Levels (w : ℕ) : ℕ → WorkflowState → WorkflowState → Prop
  | bound (s : WorkflowState) : Levels w 0 s s
  | still {n : ℕ} {s s' : WorkflowState} : Level w s s' → ¬ Moved s s' → Levels w (n + 1) s s'
  | moved {n : ℕ} {s s' s'' : WorkflowState} :
      Level w s s' → Moved s s' → Levels w n s' s'' → Levels w (n + 1) s s''

/-- `_cancel_unreachable` -/
def CancelUnreachable (w : ℕ) (s s' : WorkflowState) : Prop :=
  s.cancellableEdges w = [] ∧ s' = s ∨ s.cancellableEdges w ≠ [] ∧ Levels w maxCancelPasses s s'

/-- A run of the tick's other steps. -/
inductive BackstopRun : WorkflowState → WorkflowState → Prop
  | refl (s : WorkflowState) : BackstopRun s s
  | step {s s' s'' : WorkflowState} {a : WorkflowAction} : BackstopRun s s' → a.Backstop = true →
      workflowSystem.step s' a = some s'' → BackstopRun s s''

/-- A tick, as far as one workflow is concerned. -/
inductive Tick (w : ℕ) : WorkflowState → WorkflowState → Prop
  | run {s s₁ s₂ s' : WorkflowState} : BackstopRun s s₁ → s₁.Quiet → CancelUnreachable w s₁ s₂ →
      BackstopRun s₂ s' → s'.Quiet → Tick w s s'

inductive Ticks (w : ℕ) : ℕ → WorkflowState → WorkflowState → Prop
  | none (s : WorkflowState) : Ticks w 0 s s
  | tick {n : ℕ} {s s' s'' : WorkflowState} : Ticks w n s s' → Tick w s' s'' → Ticks w (n + 1) s s''

/-- The nodes that still wait for a verdict. -/
def pendingNodes (s : WorkflowState) : Finset TaskId :=
  (s.edges.map (·.downstream)).toFinset.filter fun t => s.Cancellable t

theorem Level.eq (hq : s.Quiet) (hs : s.Sealed w) (h : Level w s s') :
    ∃ now, s' = s.cancelPairs (s.levelPairs w) now := by
  obtain ⟨x, now, h⟩ := h
  rw [run_level hq hs] at h
  exact ⟨now, (Option.some.inj h).symm⟩

theorem ConeInv.level (hi : s.ConeInv) (h : Level w s s') : s'.ConeInv := by
  obtain ⟨x, now, h⟩ := h
  exact hi.run h

theorem Kept.cancellable (h : s.Kept s') : s'.Cancellable t ↔ s.Cancellable t := by
  unfold Cancellable
  rcases h.status t with hsame | ⟨hw, hr⟩
  · rw [hsame]
  · rw [hw, hr]
    simp [Status.Cancellable]

theorem Kept.dead (h : s.Kept s') (hd : s'.Dead u) : s.Dead u := by
  have hstatus := h.status u
  rcases hd with ⟨st, hst, hdead⟩ | ⟨hgone, hrec⟩
  · rcases hstatus with hsame | ⟨-, hr⟩
    · exact .inl ⟨st, hsame ▸ hst, hdead⟩
    · obtain rfl : Status.ready = st := Option.some.inj (hr.symm.trans hst)
      simp [Status.Dead] at hdead
  · rcases hstatus with hsame | ⟨-, hr⟩
    · have hgone' := hsame.symm.trans hgone
      exact .inr ⟨hgone', h.recorded u hgone' ▸ hrec⟩
    · simp [hgone] at hr

/-- A cone that is closed stays closed. -/
theorem Kept.closed (h : s.Kept s') (hc : s.cancellableEdges w = []) :
    s'.cancellableEdges w = [] := by
  rw [List.eq_nil_iff_forall_not_mem] at hc ⊢
  intro e' he'
  obtain ⟨hmem, hw, hsat, hdead, hcan⟩ := mem_cancellableEdges.mp he'
  obtain ⟨f, hf, hmarks⟩ := h.edges
  rw [hf] at hmem
  obtain ⟨e, he, rfl⟩ := List.mem_map.mp hmem
  have hm := hmarks e
  rw [hm.upstream] at hdead
  rw [hm.downstream] at hcan
  refine hc e (mem_cancellableEdges.mpr ⟨he, hm.workflow.symm.trans hw, ?_, h.dead hdead,
    h.cancellable.mp hcan⟩)
  by_contra hmarked
  rw [hm.satisfied (by simpa using hmarked)] at hsat
  cases hsat

theorem Kept.pendingNodes (h : s.Kept s') : s'.pendingNodes = s.pendingNodes := by
  obtain ⟨f, hf, hmarks⟩ := h.edges
  have hdown : s'.edges.map (·.downstream) = s.edges.map (·.downstream) := by
    rw [hf, List.map_map]
    exact List.map_congr_left fun e _ => (hmarks e).downstream
  unfold WorkflowState.pendingNodes
  rw [hdown]
  exact Finset.filter_congr fun t _ => h.cancellable

/-- An edge out of a task that never succeeded stays unmarked. -/
theorem Kept.unmarked (h : s.Kept s') (ho : s'.OrderInv) {e : OxpullWorkflowEdge}
    (he : e ∈ s.edges) (hup : e.upstream ∉ s.succeeded) :
    ∃ e' ∈ s'.edges, e'.workflow = e.workflow ∧ e'.upstream = e.upstream ∧
      e'.downstream = e.downstream ∧ e'.satisfied = false := by
  obtain ⟨f, hf, hmarks⟩ := h.edges
  have hm := hmarks e
  have hmem : f e ∈ s'.edges := hf ▸ List.mem_map_of_mem he
  refine ⟨f e, hmem, hm.workflow, hm.upstream, hm.downstream, ?_⟩
  by_contra hsat
  have hwon := ho.marks (f e) hmem (by simpa using hsat)
  rw [hm.upstream, h.succeeded] at hwon
  exact hup hwon

theorem Kept.sealed (h : s.Kept s') (hs : s.Sealed w) : s'.Sealed w := by
  obtain ⟨f, hf, hst⟩ := hs
  exact ⟨f, h.workflows ▸ hf, hst⟩

theorem BackstopRun.kept (h : BackstopRun s s') (hi : s.ConeInv) (hs : s.Steady) :
    s'.ConeInv ∧ s.Kept s' := by
  induction h with
  | refl => exact ⟨hi, .refl hs⟩
  | step _ ha hstep ih =>
    obtain ⟨hi', hk⟩ := ih
    exact ⟨step_cone hi' hstep, hk.trans (backstop_kept hi'.order hk.steady ha hstep)⟩

section level

variable {pairs : List (TaskId × ℕ)}

theorem quiet_cancelPairs (hq : s.Quiet) : (s.cancelPairs pairs now).Quiet := by
  obtain ⟨rows, succeeded, nodes, heq⟩ := s.cancelPairs_frame pairs now
  rw [heq]
  exact hq

theorem sealed_cancelPairs (hs : s.Sealed w) : (s.cancelPairs pairs now).Sealed w := by
  obtain ⟨rows, succeeded, nodes, heq⟩ := s.cancelPairs_frame pairs now
  rw [heq]
  exact hs

theorem edges_cancelPairs : (s.cancelPairs pairs now).edges = s.edges := by
  obtain ⟨rows, succeeded, nodes, heq⟩ := s.cancelPairs_frame pairs now
  rw [heq]

theorem cancelPairs_nil (s : WorkflowState) (now : ℤ) : s.cancelPairs [] now = s :=
  rfl

/-- A level discards the cancellable rows of its pairs. -/
theorem discarded_of_mem {e : ℕ} (h : (t, e) ∈ s.levelPairs w) (now : ℤ) :
    (∃ st ∈ s.status t, st.Cancellable) ∧
      (s.cancelPairs (s.levelPairs w) now).status t = some .discarded := by
  obtain ⟨-, st, hrow, hcan⟩ := mem_levelPairs.mp h
  refine ⟨⟨st, status_of_row hrow, hcan⟩, status_of_row (e := e) ?_⟩
  rw [row_cancelPairs]
  exact cancel_of_mem h hrow hcan now

theorem moved_of_ne_nil (h : s.levelPairs w ≠ []) :
    Moved s (s.cancelPairs (s.levelPairs w) now) := by
  obtain ⟨⟨t, e⟩, ht⟩ := List.exists_mem_of_ne_nil _ h
  obtain ⟨⟨st, hst, hcan⟩, hdone⟩ := discarded_of_mem ht now
  refine ⟨t, fun hold => ?_, hdone⟩
  obtain rfl : Status.discarded = st := Option.some.inj (hold.symm.trans hst)
  simp [Status.Cancellable] at hcan

theorem cancellable_cancelPairs (h : (s.cancelPairs pairs now).Cancellable t) :
    s.Cancellable t := by
  obtain ⟨st, hst, hcan⟩ := h
  rw [Option.mem_def, status_eq_row, row_cancelPairs] at hst
  rcases row_updateMany_cancel s pairs now t with hsame | ⟨st', e, -, -, -, hdone⟩
  · rw [hsame, ← status_eq_row] at hst
    exact ⟨st, hst, hcan⟩
  · rw [hdone] at hst
    obtain rfl : Status.discarded = st := Option.some.inj hst
    simp [Status.Cancellable] at hcan

/-- A level that has pairs leaves fewer nodes that wait. -/
theorem card_pendingNodes_lt (h : s.levelPairs w ≠ []) (now : ℤ) :
    (s.cancelPairs (s.levelPairs w) now).pendingNodes.card < s.pendingNodes.card := by
  obtain ⟨⟨t, e⟩, ht⟩ := List.exists_mem_of_ne_nil _ h
  obtain ⟨hcan, hdone⟩ := discarded_of_mem ht now
  obtain ⟨⟨edge, he, rfl⟩, -⟩ := mem_levelPairs.mp ht
  apply Finset.card_lt_card
  unfold pendingNodes
  rw [edges_cancelPairs, Finset.ssubset_iff_of_subset
    (Finset.monotone_filter_right _ fun u _ => cancellable_cancelPairs)]
  refine ⟨edge.downstream, ?_, ?_⟩
  · rw [Finset.mem_filter, List.mem_toFinset]
    exact ⟨List.mem_map_of_mem (mem_cancellableEdges.mp he).1, hcan⟩
  · rw [Finset.mem_filter]
    rintro ⟨-, st, hst, hcan'⟩
    obtain rfl : Status.discarded = st := Option.some.inj (hdone.symm.trans hst)
    simp [Status.Cancellable] at hcan'

end level

/-- The levels close the cone, or each of them leaves fewer nodes that wait. -/
theorem Levels.closes (h : Levels w n s s') (hi : s.ConeInv) (hq : s.Quiet) (hs : s.Sealed w) :
    s'.ConeInv ∧ s'.Quiet ∧ s'.Sealed w ∧
      (s'.cancellableEdges w = [] ∨ s'.pendingNodes.card + n ≤ s.pendingNodes.card) := by
  induction h with
  | bound s => exact ⟨hi, hq, hs, .inr le_rfl⟩
  | @still n s s' hlevel hmoved =>
    have hi' := hi.level hlevel
    obtain ⟨now, rfl⟩ := hlevel.eq hq hs
    have hnil : s.levelPairs w = [] := by
      by_contra hne
      exact hmoved (moved_of_ne_nil hne)
    refine ⟨hi', quiet_cancelPairs hq, sealed_cancelPairs hs, .inl ?_⟩
    rw [hnil, cancelPairs_nil]
    exact levelPairs_eq_nil.mp hnil
  | @moved n s s' s'' hlevel hmoved _ ih =>
    have hi' := hi.level hlevel
    obtain ⟨now, rfl⟩ := hlevel.eq hq hs
    obtain ⟨hi'', hq'', hs'', hclosed⟩ := ih hi' (quiet_cancelPairs hq) (sealed_cancelPairs hs)
    refine ⟨hi'', hq'', hs'', hclosed.imp_right fun hle => ?_⟩
    have hne : s.levelPairs w ≠ [] := by
      intro hnil
      obtain ⟨t, hnot, hdone⟩ := hmoved
      rw [hnil, cancelPairs_nil] at hdone
      exact hnot hdone
    have hlt := card_pendingNodes_lt hne now
    omega

theorem exists_levels (hq : s.Quiet) (hs : s.Sealed w) (n : ℕ) : ∃ s', Levels w n s s' := by
  induction n generalizing s with
  | zero => exact ⟨s, .bound s⟩
  | succ n ih =>
    have hlevel : Level w s (s.cancelPairs (s.levelPairs w) 0) := ⟨0, 0, run_level hq hs⟩
    by_cases hmoved : Moved s (s.cancelPairs (s.levelPairs w) 0)
    · obtain ⟨s', h⟩ := ih (quiet_cancelPairs hq) (sealed_cancelPairs hs)
      exact ⟨s', .moved hlevel hmoved h⟩
    · exact ⟨_, .still hlevel hmoved⟩

theorem CancelUnreachable.closes (h : CancelUnreachable w s s') (hi : s.ConeInv) (hq : s.Quiet)
    (hs : s.Sealed w) : s'.ConeInv ∧ s'.Quiet ∧ s'.Sealed w ∧
      (s'.cancellableEdges w = [] ∨ s'.pendingNodes.card < s.pendingNodes.card) := by
  rcases h with ⟨hnil, rfl⟩ | ⟨-, hlevels⟩
  · exact ⟨hi, hq, hs, .inl hnil⟩
  · obtain ⟨hi', hq', hs', hclosed⟩ := hlevels.closes hi hq hs
    refine ⟨hi', hq', hs', hclosed.imp_right fun hle => ?_⟩
    have hpos : 0 < maxCancelPasses := by decide
    omega

/-- A tick closes the cone, or leaves fewer nodes that wait; a closed cone stays closed. -/
theorem Tick.closes (h : Tick w s s') (hi : s.ConeInv) (hq : s.Quiet) (hs : s.Sealed w) :
    s'.ConeInv ∧ s'.Quiet ∧ s'.Sealed w ∧
      (s'.cancellableEdges w = [] ∨ s'.pendingNodes.card < s.pendingNodes.card) := by
  obtain ⟨hbefore, hq₁, hcancel, hafter, hq'⟩ := h
  obtain ⟨hi₁, hk₁⟩ := hbefore.kept hi hq.steady
  obtain ⟨hi₂, hq₂, hs₂, hclosed⟩ := hcancel.closes hi₁ hq₁ (hk₁.sealed hs)
  obtain ⟨hi', hk'⟩ := hafter.kept hi₂ hq₂.steady
  refine ⟨hi', hq', hk'.sealed hs₂, ?_⟩
  rw [hk'.pendingNodes, ← hk₁.pendingNodes]
  exact hclosed.imp_left hk'.closed

/-- Over a closed cone a tick is its other steps only. -/
theorem Tick.kept (h : Tick w s s') (hi : s.ConeInv) (hq : s.Quiet)
    (hc : s.cancellableEdges w = []) : s'.ConeInv ∧ s'.Quiet ∧ s.Kept s' := by
  obtain ⟨hbefore, hq₁, hcancel, hafter, hq'⟩ := h
  obtain ⟨hi₁, hk₁⟩ := hbefore.kept hi hq.steady
  rcases hcancel with ⟨-, rfl⟩ | ⟨hne, -⟩
  · obtain ⟨hi', hk'⟩ := hafter.kept hi₁ hq₁.steady
    exact ⟨hi', hq', hk₁.trans hk'⟩
  · exact absurd (hk₁.closed hc) hne

theorem Ticks.kept (h : Ticks w n s s') (hi : s.ConeInv) (hq : s.Quiet)
    (hc : s.cancellableEdges w = []) : s'.ConeInv ∧ s'.Quiet ∧ s.Kept s' := by
  induction h with
  | none s => exact ⟨hi, hq, .refl hq.steady⟩
  | tick _ htick ih =>
    obtain ⟨hi₁, hq₁, hk₁⟩ := ih hi hq hc
    obtain ⟨hi', hq', hk'⟩ := htick.kept hi₁ hq₁ (hk₁.closed hc)
    exact ⟨hi', hq', hk₁.trans hk'⟩

theorem Ticks.closes (h : Ticks w n s s') (hi : s.ConeInv) (hq : s.Quiet) (hs : s.Sealed w) :
    s'.ConeInv ∧ s'.Quiet ∧ s'.Sealed w ∧
      (s'.cancellableEdges w = [] ∨ s'.pendingNodes.card + n ≤ s.pendingNodes.card) := by
  induction h with
  | none s => exact ⟨hi, hq, hs, .inr le_rfl⟩
  | tick _ htick ih =>
    obtain ⟨hi₁, hq₁, hs₁, hclosed⟩ := ih hi hq hs
    obtain ⟨hi', hq', hs', hstep⟩ := htick.closes hi₁ hq₁ hs₁
    refine ⟨hi', hq', hs', ?_⟩
    rcases hclosed with hnil | hle
    · exact .inl ((htick.kept hi₁ hq₁ hnil).2.2.closed hnil)
    · exact hstep.imp_right fun hlt => by omega

theorem exists_ticks (hq : s.Quiet) (hs : s.Sealed w) (hi : s.ConeInv) (n : ℕ) :
    ∃ s', Ticks w n s s' := by
  induction n with
  | zero => exact ⟨s, .none s⟩
  | succ n ih =>
    obtain ⟨s₁, hticks⟩ := ih
    obtain ⟨hi₁, hq₁, hs₁, -⟩ := hticks.closes hi hq hs
    by_cases hnil : s₁.cancellableEdges w = []
    · exact ⟨s₁, hticks.tick (.run (.refl s₁) hq₁ (.inl ⟨hnil, rfl⟩) (.refl s₁) hq₁)⟩
    · obtain ⟨s₂, hlevels⟩ := exists_levels hq₁ hs₁ maxCancelPasses
      have hq₂ := (hlevels.closes hi₁ hq₁ hs₁).2.1
      exact ⟨s₂, hticks.tick (.run (.refl s₁) hq₁ (.inr ⟨hnil, hlevels⟩) (.refl s₂) hq₂)⟩

/-- The task depends on a dead node, directly or through nodes that still have a row or a record,
along unmarked edges. -/
inductive DependsOnDead (s : WorkflowState) (w : ℕ) : TaskId → Prop
  | direct {e : OxpullWorkflowEdge} : e ∈ s.edges → e.workflow = w → e.satisfied = false →
      s.Dead e.upstream → DependsOnDead s w e.downstream
  | through {e : OxpullWorkflowEdge} : e ∈ s.edges → e.workflow = w → e.satisfied = false →
      s.status e.upstream ≠ none ∨ s.recorded e.upstream ≠ none → DependsOnDead s w e.upstream →
      DependsOnDead s w e.downstream

theorem DependsOnDead.edge (h : s.DependsOnDead w t) :
    ∃ e ∈ s.edges, e.downstream = t ∧ e.satisfied = false := by
  cases h with
  | direct he _ hsat _ => exact ⟨_, he, rfl, hsat⟩
  | through he _ hsat _ _ => exact ⟨_, he, rfl, hsat⟩

/-- What depends on a dead node was never started. -/
theorem DependsOnDead.dead_or_waiting (hi : s.ConeInv) (h : s.DependsOnDead w u)
    (hthere : s.status u ≠ none ∨ s.recorded u ≠ none) :
    s.Dead u ∨ s.status u = some .waiting := by
  obtain ⟨e, he, hdown, hsat⟩ := h.edge
  have hclosed : ¬ s.Open u := fun hopen => by simp [hopen e he hdown] at hsat
  cases hst : s.status u with
  | some st =>
    by_cases hw : st = .waiting
    · exact .inr (hw ▸ rfl)
    · by_cases hd : st = .discarded
      · exact .inl (.inl ⟨st, hst, .inr (.inr hd)⟩)
      · exact absurd (hi.order.started u st hst hw hd) hclosed
  | none =>
    obtain ⟨st, hrec⟩ := Option.ne_none_iff_exists'.mp (hthere.resolve_left (by simp [hst]))
    obtain ⟨n, hn, rfl, hout⟩ := recorded_mem hrec
    rcases hi.records.settled n hn st hout with rfl | hdead
    · exact absurd (hi.wonOpen _ (hi.order.records n hn hout)) hclosed
    · exact .inl (.inr ⟨hst, st, hrec, hdead⟩)

/-- Where no edge is cancellable, nothing that waits depends on a dead node. -/
theorem DependsOnDead.not_cancellable (hi : s.ConeInv) (hc : s.cancellableEdges w = [])
    (h : s.DependsOnDead w t) : ¬ s.Cancellable t := by
  have hdirect : ∀ e ∈ s.edges, e.workflow = w → e.satisfied = false → s.Dead e.upstream →
      ¬ s.Cancellable e.downstream := by
    intro e he hw hsat hdead hcan
    have hmem := mem_cancellableEdges.mpr ⟨he, hw, hsat, hdead, hcan⟩
    rw [hc] at hmem
    cases hmem
  induction h with
  | direct he hw hsat hdead => exact hdirect _ he hw hsat hdead
  | through he hw hsat hthere hup ih =>
    rcases hup.dead_or_waiting hi hthere with hdead | hwait
    · exact hdirect _ he hw hsat hdead
    · exact absurd ⟨.waiting, hwait, .inr rfl⟩ ih

theorem cone_of_reachable (h : workflowSystem.Reachable s) : s.ConeInv :=
  h.invariant ConeInv (fun _ hs => cone_of_start hs) fun _ _ _ hi hs => step_cone hi hs

theorem cancel_of_recording (h : workflowSystem.ReachesBy Recording s) : s.CancelInv := by
  have hboth : s.GateInv ∧ s.CancelInv := h.invariant (fun s => s.GateInv ∧ s.CancelInv)
    (fun _ hs => ⟨gate_of_start hs, cancel_of_start hs⟩)
    fun _ _ _ ⟨hi, hc⟩ hr hs => ⟨hi.step hr hs, step_cancel hi hc hr hs⟩
  exact hboth.2

end WorkflowState

/-- Cancellation is sound and complete. Where every outcome was recorded with its row, a row that a
level discards was READY or WAITING at the epoch that was read, and stands behind an unmarked edge
from an upstream that is dead under the transaction's locks. Whoever wrote the outcomes, with no
other writer more ticks than there are waiting nodes leave none that depends on a dead node. -/
theorem cancel_sound_and_complete {s : WorkflowState} (h : workflowSystem.Reachable s) :
    (workflowSystem.ReachesBy WorkflowState.Recording s →
      ∀ x now s' t, workflowSystem.step s (.cancelMany x now) = some s' →
        s.status t ≠ some .discarded → s'.status t = some .discarded →
        ∃ w doomed pairs st e, s.passes x = .cancelPairs w doomed pairs ∧ (t, e) ∈ pairs ∧
          s.row t = some (st, e) ∧ st.Cancellable ∧
          ∃ edge ∈ s'.edges, edge.workflow = w ∧ edge.downstream = t ∧ edge.satisfied = false ∧
            s.DeadUnder x edge.upstream) ∧
    ∀ w n, s.Quiet → s.Sealed w → s.pendingNodes.card < n →
      (∃ s', WorkflowState.Ticks w n s s') ∧
      ∀ s', WorkflowState.Ticks w n s s' → ∀ t, s'.DependsOnDead w t → ¬ s'.Cancellable t := by
  have hi := WorkflowState.cone_of_reachable h
  refine ⟨fun hrec x now s' t hs hnot hdone => ?_,
    fun w n hq hsealed hn => ⟨?_, fun s' hticks t => ?_⟩⟩
  · change WorkflowState.step s (.cancelMany x now) = some s' at hs
    simp only [WorkflowState.step] at hs
    split at hs
    · next w doomed pairs hx =>
      obtain ⟨-, hs⟩ := Option.ite_none_right_eq_some.mp hs
      obtain rfl := Option.some.inj hs
      have hok : s.CancelOk x (.cancelPairs w doomed pairs) :=
        hx ▸ (WorkflowState.cancel_of_recording hrec).passes x
      obtain ⟨-, hdoomed, hbehind⟩ := hok
      have hdone' : (s.cancelPairs pairs now).status t = some .discarded := hdone
      rw [WorkflowState.status_eq_row, WorkflowState.row_cancelPairs] at hdone'
      rcases WorkflowState.row_updateMany_cancel s pairs now t with hsame | ⟨st, e, hq, hrow, hcan, -⟩
      · rw [hsame, ← WorkflowState.status_eq_row] at hdone'
        exact absurd hdone' hnot
      · obtain ⟨edge, he, hw, hup, hdown, hsat⟩ := hbehind (t, e) hq
        refine ⟨w, doomed, pairs, st, e, hx, hq, hrow, hcan, edge, ?_, hw, hdown, hsat,
          (hdoomed _ hup).2.2⟩
        change edge ∈ (s.cancelPairs pairs now).edges
        rw [WorkflowState.edges_cancelPairs]
        exact he
    · cases hs
  · exact WorkflowState.exists_ticks hq hsealed hi n
  · intro hdep
    obtain ⟨hi', -, -, hclosed⟩ := hticks.closes hi hq hsealed
    have hnil : s'.cancellableEdges w = [] := by
      rcases hclosed with hnil | hle
      · exact hnil
      · omega
    exact hdep.not_cancellable hi' hnil

/-- "b" and, behind it, "c" wait for "a", which a worker has claimed. -/
def claimedHead : List WorkflowAction :=
  [.create 0, .startAdd 0 0 "a" [], .commitAdd 0 1 oneAttempt 1 0, .startAdd 0 0 "b" ["a"],
    .readSucceeded 0 100, .commitAdd 0 2 oneAttempt 1 0, .startAdd 0 0 "c" ["b"],
    .readSucceeded 0 100, .commitAdd 0 3 oneAttempt 1 0, .sealOnce 0, .clear 1,
    .claim 1 (.claimPostgresql (soloWorker "w1") 5 5)]

/-- "a" fails. -/
def failedHead : List WorkflowAction :=
  claimedHead ++ [.outcome 1 ⟨1, 1⟩ (heldAttempt [] 1 1) 6 (.raised ⟨"E", ""⟩ none)]

/-- "a" fails, in a worker that records no nodes. -/
def plainHead : List WorkflowAction :=
  claimedHead ++ [.row 1 (.writeOutcome ⟨1, 1⟩ (heldAttempt [] 1 1) 6 (.raised ⟨"E", ""⟩ none))]

theorem recording_of_run {as : List WorkflowAction} {s : WorkflowState}
    (h : (workflowSystem.only fun _ a => a.WritesRecords = false ∧ a.WritesPlain = false).run
      noWorkflow as = some s) : workflowSystem.ReachesBy WorkflowState.Recording s :=
  System.ReachesBy.run (fun _ _ h => ⟨WorkflowState.leavesRetired_of_not h.1, h.2⟩)
    (.init noWorkflow_start) h

theorem cancel_sound_and_complete_failed_head : ∃ s s' s₀ : WorkflowState,
    workflowSystem.run noWorkflow (failedHead ++ [.readCancellable 5 0, .lockDoomed 5, .readGone 5,
      .readCone 5, .readPairs 5]) = some s ∧
    workflowSystem.step s (.cancelMany 5 7) = some s' ∧ s'.status 2 = some .discarded ∧
    (∃ edge ∈ s'.edges, edge.downstream = 2 ∧ s.DeadUnder 5 edge.upstream) ∧
    workflowSystem.run noWorkflow plainHead = some s₀ ∧ s₀.Cancellable 3 ∧
    ∀ s₁, WorkflowState.Ticks 0 3 s₀ s₁ → ∀ t, s₁.DependsOnDead 0 t → ¬ s₁.Cancellable t := by
  have sound : ∀ s s', (workflowSystem.only fun _ a =>
        a.WritesRecords = false ∧ a.WritesPlain = false).run noWorkflow (failedHead ++
          [.readCancellable 5 0, .lockDoomed 5, .readGone 5, .readCone 5, .readPairs 5]) = some s →
      workflowSystem.step s (.cancelMany 5 7) = some s' → s.status 2 = some .waiting →
      s'.status 2 = some .discarded →
      ∃ edge ∈ s'.edges, edge.downstream = 2 ∧ s.DeadUnder 5 edge.upstream := by
    intro s s' hrun hs hwait hdone
    have hrec := recording_of_run hrun
    obtain ⟨_, _, _, _, _, -, -, -, -, edge, he, -, hdown, -, hdead⟩ :=
      (cancel_sound_and_complete hrec.reachable).1 hrec 5 7 s' 2 hs (by simp [hwait]) hdone
    exact ⟨edge, he, hdown, hdead⟩
  have complete : ∀ s₀, workflowSystem.run noWorkflow plainHead = some s₀ →
      s₀.Quiet → s₀.Sealed 0 → s₀.pendingNodes.card = 2 → ∀ s₁, WorkflowState.Ticks 0 3 s₀ s₁ →
        ∀ t, s₁.DependsOnDead 0 t → ¬ s₁.Cancellable t := by
    intro s₀ hrun hq hs hcard
    have hreach := System.Reachable.of_run (M := workflowSystem) noWorkflow_start hrun
    exact ((cancel_sound_and_complete hreach).2 0 3 hq hs (by omega)).2
  refine ⟨_, _, _, rfl, rfl, rfl, sound _ _ rfl rfl rfl rfl, rfl, ⟨.waiting, rfl, .inr rfl⟩,
    complete _ rfl ⟨?_, fun _ => rfl, fun _ => rfl⟩ ⟨_, rfl, rfl⟩ rfl⟩
  rintro (_ | x) <;> rfl

/-- "a" fails and is retried; a worker that records no nodes writes its success, and the row is
pruned. Party 5 has read the row before that, and marks the edge after party 6 has read it. -/
def markedBehindCancel : List WorkflowAction :=
  [.create 0, .startAdd 0 0 "a" [], .commitAdd 0 1 oneAttempt 1 0, .startAdd 0 0 "b" ["a"],
    .readSucceeded 0 100, .commitAdd 0 2 oneAttempt 1 0, .sealOnce 0, .clear 1,
    .claim 1 (.claimPostgresql (soloWorker "w1") 5 5),
    .outcome 1 ⟨1, 1⟩ (heldAttempt [] 1 1) 6 (.raised ⟨"E", ""⟩ none), .row 1 .retryMany, .clear 1,
    .claim 1 (.claimPostgresql (soloWorker "w1") 5 5),
    .row 1 (.writeOutcome ⟨1, 1⟩ (heldAttempt [⟨"E", ""⟩] 2 3) 7 (.returned none)),
    .readEdgesInto 5 [2], .proveRows 5 100, .pruneTask 1, .readCancellable 6 0, .readGone 6,
    .readCone 6, .readPairs 6, .markProven 5 [1]]

/-- "b", behind the failed "a", is discarded by an operator, and pruned before a record is written. -/
def prunedBetween : List WorkflowAction :=
  failedHead ++ [.row 2 (.discardMany 7), .pruneTask 2]

theorem cancel_unsound_and_incomplete :
    (∃ s s', workflowSystem.run noWorkflow markedBehindCancel = some s ∧
      workflowSystem.step s (.cancelMany 6 9) = some s' ∧ s.status 2 = some .waiting ∧
      s'.status 2 = some .discarded ∧
      ∀ edge ∈ s'.edges, edge.downstream = 2 → edge.satisfied = true) ∧
    ∃ s : WorkflowState, workflowSystem.run noWorkflow prunedBetween = some s ∧ s.Quiet ∧
      s.Sealed 0 ∧ ∀ n s', WorkflowState.Ticks 0 n s s' → s'.Dead 1 ∧ s'.Cancellable 3 ∧
        (∃ e ∈ s'.edges, e.workflow = 0 ∧ e.upstream = 1 ∧ e.downstream = 2 ∧
          e.satisfied = false) ∧
        ∃ e ∈ s'.edges, e.workflow = 0 ∧ e.upstream = 2 ∧ e.downstream = 3 ∧
          e.satisfied = false := by
  refine ⟨⟨_, _, rfl, rfl, rfl, rfl, by decide⟩, ?_⟩
  have stuck : ∀ s : WorkflowState, workflowSystem.run noWorkflow prunedBetween = some s →
      s.Quiet → s.cancellableEdges 0 = [] → s.status 1 = some .failed → s.status 3 = some .waiting →
      s.succeeded = [] → s.edges = [⟨1, 0, 1, 2, false⟩, ⟨2, 0, 2, 3, false⟩] →
      ∀ n s', WorkflowState.Ticks 0 n s s' → s'.Dead 1 ∧ s'.Cancellable 3 ∧
        (∃ e ∈ s'.edges, e.workflow = 0 ∧ e.upstream = 1 ∧ e.downstream = 2 ∧
          e.satisfied = false) ∧
        ∃ e ∈ s'.edges, e.workflow = 0 ∧ e.upstream = 2 ∧ e.downstream = 3 ∧
          e.satisfied = false := by
    intro s hrun hq hc hdead hwait hwon hedges n s' hticks
    have hreach := System.Reachable.of_run (M := workflowSystem) noWorkflow_start hrun
    obtain ⟨hi', -, hk⟩ := hticks.kept (WorkflowState.cone_of_reachable hreach) hq hc
    refine ⟨?_, hk.cancellable.mpr ⟨.waiting, hwait, .inr rfl⟩, ?_, ?_⟩
    · rcases hk.status 1 with hsame | ⟨hw, -⟩
      · exact .inl ⟨.failed, hsame.trans hdead, .inl rfl⟩
      · simp [hdead] at hw
    · exact hk.unmarked hi'.order (e := ⟨1, 0, 1, 2, false⟩) (by simp [hedges])
        (by simp [hwon])
    · exact hk.unmarked hi'.order (e := ⟨2, 0, 2, 3, false⟩) (by simp [hedges])
        (by simp [hwon])
  have hquiet : ∀ s, workflowSystem.run noWorkflow prunedBetween = some s → s.Quiet := by
    intro s hs
    obtain rfl := Option.some.inj hs
    refine ⟨?_, fun _ => rfl, fun _ => rfl⟩
    rintro (_ | x) <;> rfl
  exact ⟨_, rfl, hquiet _ rfl, ⟨_, rfl, rfl⟩, stuck _ rfl (hquiet _ rfl) rfl rfl rfl rfl rfl⟩

end DjangoOx
