import DjangoOx.Workflow.ReleaseStep

/-! The handshake of `add` with an outcome: which locks a call holds, what it has read under them,
and what the steps of the others leave of it. -/
namespace DjangoOx

open Machine

/-- The party commits the node of the task. -/
def ReleasingAction.Adds (a : ReleasingAction) (x : ℕ) (task : TaskId) : Prop :=
  ∃ call inherited now replied, a = .commitAdd x task call inherited now replied

namespace WorkflowState

variable {s s' : WorkflowState} {x : ℕ} {t u d : TaskId} {a : WorkflowAction} {p c : Option ℕ}
  {r r₀ : RowState} {b : Backoff} {held : OxTask} {now : ℤ} {ending : AttemptEnd}

/-- What holds of the tables in every state, and the releases rest on. -/
structure TablesInv (s : WorkflowState) : Prop where
  order : s.OrderInv
  records : s.RecordInv
  last : s.LastInv
  counts : s.CountInv
  noded : s.Noded
  declares : ∀ e ∈ s.edges, ∃ ds, s.declared e.downstream = some ds ∧ e.upstream ∈ ds

theorem tables_of_start (h : s.Start) : s.TablesInv := by
  refine ⟨order_of_start h, record_of_start h, last_of_start h, count_of_start h, ?_, ?_⟩
  · obtain ⟨-, -, -, hr, -⟩ := h
    intro t st hst
    simp [status, hr] at hst
  · obtain ⟨-, -, -, -, -, he, -⟩ := h
    simp [he]

theorem TablesInv.hold (hi : s.TablesInv) (holder : TaskId → Option ℕ) (owner : ℕ → Option ℕ) :
    TablesInv { s with holder := holder, owner := owner } where
  order := hi.order.hold holder owner
  records := hi.records.hold holder owner
  last := hi.last.hold holder owner
  counts := ⟨hi.counts.distinct, hi.counts.count, hi.counts.total, hi.counts.absent,
    hi.counts.retiring, hi.counts.chunked⟩
  noded := hi.noded
  declares := hi.declares

theorem TablesInv.step (hi : s.TablesInv) (hc : a.WritesPlain = false)
    (h : s.step a = some s') : s'.TablesInv := by
  have hturn := step_turn h
  have hedges := step_edgeTurn hi.order h
  refine ⟨step_order hi.order h, step_record hi.order hi.records h,
    step_last hi.order hi.records hi.last hc h, hi.counts.turn hi.order hi.records hturn,
    hi.noded.turn hi.counts hturn, fun e' he' => ?_⟩
  rcases hedges.edges e' he' with ⟨e, he, -, hup, hdown, -⟩ | ⟨x, -, -, -, hd, hup, -⟩
  · obtain ⟨ds, hd, hmem⟩ := hi.declares e he
    rw [hup, hdown]
    exact ⟨ds, hedges.declared _ _ hd, hmem⟩
  · exact ⟨_, hd, hup⟩

/-- What an outcome has read of the edges out of its task is all there is to mark. -/
structure ReadsOut (s : WorkflowState) (t : TaskId) (pairs : List (ℕ × TaskId)) : Prop where
  all : ∀ e ∈ s.edges, e.upstream = t → e.satisfied = false → (e.pk, e.downstream) ∈ pairs
  only : ∀ q ∈ pairs, q.1 < s.nextEdge ∧ ∀ e ∈ s.edges, e.pk = q.1 → e.upstream = t

theorem ReadsOut.marks {pairs : List (ℕ × TaskId)} (h : s.ReadsOut t pairs) :
    markSatisfied s.edges (pairs.map (·.1)) =
      s.edges.map fun e => if e.upstream ∈ [t] then { e with satisfied := true } else e := by
  refine List.map_congr_left fun e he => ?_
  by_cases hmem : e.pk ∈ pairs.map (·.1)
  · obtain ⟨q, hq, hpk⟩ := List.mem_map.mp hmem
    have hup : e.upstream = t := (h.only q hq).2 e he hpk.symm
    simp [hmem, hup]
  · rw [if_neg hmem]
    split_ifs with hup
    · cases hsat : e.satisfied with
      | true => simp [← hsat]
      | false =>
        have hread := h.all e he (List.mem_singleton.mp hup) hsat
        exact absurd (List.mem_map_of_mem hread) hmem
    · rfl

theorem nodeOf_isSome {k : ℕ × ℕ × TaskId} (hk : k ∈ s.nodeKeys) : (s.nodeOf k.2.2).isSome := by
  obtain ⟨n, hn, rfl⟩ := List.mem_map.mp hk
  unfold nodeOf
  rw [List.find?_isSome]
  exact ⟨n, hn, by simp [OxpullWorkflowNode.key]⟩

/-- The stages that an outcome of a node commits from. -/
def Commits (s : WorkflowState) (t : TaskId) (st : Status) : OutcomeStage → Prop
  | .recorded => st ≠ .successful
  | .marked pairs => st = .successful ∧ s.ReadsOut t pairs
  | _ => False

/-- An outcome taken a statement at a time commits what one that is taken at once would. -/
theorem step_outcome {stage : OutcomeStage} (hheld : s.holder t = some x)
    (hrow : s.rows t = some r₀) (hstep : r₀.step (.writeOutcome b held now ending) = some r)
    (hset : r.row.status.RecordedByTheWorker) (hnode : (s.nodeOf t).isSome)
    (hstage : s.Commits t r.row.status stage) :
    (s.unlock x).step (.outcome t b held now ending) =
      some ((s.withOutcome t r stage).unlock x) := by
  have hfree : (s.unlock x).holder t = none := if_pos hheld
  have hput : ((s.unlock x).rows t).bind (·.step (.writeOutcome b held now ending)) = some r := by
    show (s.rows t).bind _ = some r
    rw [hrow]
    exact hstep
  have hfound : (((s.unlock x).putRow t r).nodeOf t).isSome = true := hnode
  have hrecord : r.row.status = .successful ∨ r.row.status = .failed := hset
  simp only [step]
  rw [if_pos hfree, hput, Option.map_some, if_pos hrecord]
  congr 1
  unfold recordNodeOutcome
  rw [if_pos hfound]
  cases stage with
  | written => exact hstage.elim
  | unrecorded => exact hstage.elim
  | recorded =>
    have hfailed : r.row.status ≠ .successful := hstage
    simp only [if_neg hfailed]
    rfl
  | marked pairs =>
    obtain ⟨hwon, hread⟩ := hstage
    simp only [if_pos hwon]
    show _ = WorkflowState.unlock { (s.putRow t r).recordNode t r.row.status r.row.leaseEpoch with
      edges := markSatisfied s.edges (pairs.map (·.1)) } x
    rw [hread.marks]
    rfl

/-- The marks that a re-check is still to make. -/
def WillMark (s : WorkflowState) (d : TaskId) : WorkflowPass → Prop
  | .idle => True
  | .proving edges unread gone proven => ∀ e ∈ s.edges, e.downstream = d → e.satisfied = false →
      s.SucceededOrRecorded e.upstream → edgeFields e ∈ edges ∧
        (e.upstream ∈ unread ∨ e.upstream ∈ gone ∧ s.status e.upstream = none ∨
          e.upstream ∈ proven)
  | _ => False

/-- A chunk's transaction is still to release the node. -/
def WillRelease (s : WorkflowState) (d : TaskId) : WorkflowPass → Prop
  | .idle => True
  | .releasing chunk => d ∈ chunk
  | .freed free => d ∈ free
  | .paired pairs => ∃ e, (d, e) ∈ pairs ∧ s.row d = some (.waiting, e)
  | _ => False

theorem withOutcome_frame (s : WorkflowState) (t : TaskId) (r : RowState) (stage : OutcomeStage) :
    ∃ nodes edges, s.withOutcome t r stage = { s.putRow t r with nodes := nodes, edges := edges } ∧
      nodes.map (·.key) = s.nodeKeys := by
  cases stage with
  | written => exact ⟨_, _, rfl, rfl⟩
  | unrecorded => exact ⟨_, _, rfl, rfl⟩
  | recorded => exact ⟨_, _, rfl, nodeKeys_recordNode (s.putRow t r) t _ _⟩
  | marked pairs => exact ⟨_, _, rfl, nodeKeys_recordNode (s.putRow t r) t _ _⟩

theorem turn_withOutcome {stage : OutcomeStage} (hheld : s.holder t = some x)
    (hrow : s.rows t = some r₀) (hstep : r₀.step (.writeOutcome b held now ending) = some r) :
    Turn s ((s.withOutcome t r stage).unlock x) (some x) c := by
  obtain ⟨nodes, edges, hframe, hkeys⟩ := s.withOutcome_frame t r stage
  rw [hframe]
  refine turn_of_unlock (fun u => ?_) hkeys rfl rfl (.of_eq rfl) rfl rfl
  by_cases hu : u = t
  · subst hu
    refine .moved r₀ r hrow ((rows_putRow s u u r).trans (if_pos rfl)) ?_ ?_ ?_
    · intro y hy
      exact hheld.symm.trans hy
    · exact fun hfin => RowState.step_final rfl hstep hfin
    · exact fun hw => RowState.step_waiting rfl hstep hw
  · exact .same ((rows_putRow s t u r).trans (if_neg hu))

theorem Turn.unlock (h : Turn s s' (some x) c) : Turn s (s'.unlock x) (some x) c where
  rows t := by
    cases h.rows t with
    | same hsame => exact .same hsame
    | moved r r' hr hr' hfree hfinal hwaits => exact .moved r r' hr hr' hfree hfinal hwaits
    | gone hr' hfree => exact .gone hr' hfree
    | born hnew hnode => exact .born hnew hnode
  tables := by
    cases h.tables with
    | still hn hw hk => exact .still hn hw hk
    | created w hn hk hnone hw => exact .created w hn hk hnone hw
    | moved w f f' hn hk hf hw hmove => exact .moved w f f' hn hk hf hw hmove
    | added w f task hn hk hf hopen hnew hused hw =>
      exact .added w f task hn hk hf hopen hnew hused hw
    | retired y w chunk keep hp hn hw hk hkeep => exact .retired y w chunk keep hp hn hw hk hkeep
  passes y := by
    cases h.passes y with
    | same hsame => exact .same hsame
    | other hr hc => exact .other hr hc
    | classified w after f hp hf hc => exact .classified w after f hp hf hc
    | read w after chunk hp hp' hchunk => exact .read w after chunk hp hp' hchunk
    | retired w after chunk hp hp' => exact .retired w after chunk hp hp'
  holder t y hy hne := by
    have hkept := h.holder t y hy hne
    exact (if_neg fun he => hne (he.symm.trans hkept)).trans hkept
  owner w y hy hne := by
    have hkept := h.owner w y hy hne
    exact (if_neg fun he => hne (he.symm.trans hkept)).trans hkept

end WorkflowState

namespace ReleasingState

open WorkflowState (Turn EdgeTurn edgeTurn_of_eq turn_of_eq)

variable {s s' : ReleasingState} {a : ReleasingAction} {x y : ℕ} {t u d : TaskId} {r : RowState}
  {stage : OutcomeStage}

/-- The transaction holds the row of the task, whose outcome it has written. -/
structure Written (s : ReleasingState) (x : ℕ) (t : TaskId) (r : RowState) : Prop where
  held : s.base.holder t = some x
  set : r.row.status.RecordedByTheWorker
  step : ∃ r₀ b held now ending, s.base.rows t = some r₀ ∧
    r₀.step (.writeOutcome b held now ending) = some r

def StageOk (s : ReleasingState) (x : ℕ) (t : TaskId) (r : RowState) : OutcomeStage → Prop
  | .written => True
  -- The row of a task that is no node does not take this path.
  | .unrecorded => False
  | .recorded => s.nodeHolder t = some x
  | .marked pairs => s.nodeHolder t = some x ∧ r.row.status = .successful ∧ s.base.ReadsOut t pairs

def CallOk (s : ReleasingState) (x : ℕ) : ReleasingCall → Prop
  | .adding _ unlocked =>
    ∀ u ∈ (s.base.passes x).upstream, u ∈ unlocked ∨ s.nodeHolder u = some x
  | .rechecking t => s.base.declared t ≠ none
  | .writing t r stage => s.base.passes x = .idle ∧ s.Written x t r ∧ s.StageOk x t r stage
  | .owing _ => s.base.passes x = .idle
  | _ => True

def Marking (s : ReleasingState) (x : ℕ) (d : TaskId) : Prop :=
  s.calls x = .rechecking d ∧ s.base.WillMark d (s.base.passes x)

/-- The call is to release the node, once it is marked open. -/
def Releasing (s : ReleasingState) (x : ℕ) (d : TaskId) : Prop :=
  match s.calls x with
  | .rechecking t => t = d
  | .owing left => d ∈ left
  | .releasing left chunk _ => d ∈ left ∨ d ∈ chunk ∧ s.base.WillRelease d (s.base.passes x)
  | _ => False

/-- Every edge into the node whose upstream is known to have succeeded is marked. -/
def Marked (s : ReleasingState) (d : TaskId) : Prop :=
  ∀ e ∈ s.base.edges, e.downstream = d → e.satisfied = false →
    ¬ s.base.SucceededOrRecorded e.upstream

/-- The node waits, and nothing before it has not succeeded. -/
def Due (s : ReleasingState) (d : TaskId) : Prop :=
  s.base.status d = some .waiting ∧
    ∃ ds, s.base.declared d = some ds ∧ ∀ u ∈ ds, s.base.SucceededOrRecorded u

structure Inv (s : ReleasingState) : Prop where
  tables : s.base.TablesInv
  calls : ∀ x, s.CallOk x (s.calls x)
  marks : ∀ d, s.Marked d ∨ (∃ x, s.Marking x d) ∨ d ∈ s.dropped
  due : ∀ d, s.Due d → s.base.Open d → (∃ x, s.Releasing x d) ∨ d ∈ s.dropped

/-- What a step leaves of the tables. A success is written by the COMMIT of its outcome. -/
structure Follows (s s' : ReleasingState) (a : ReleasingAction) : Prop where
  tables : s'.base.TablesInv
  turn : ∃ c, Turn s.base s'.base a.party c
  edges : EdgeTurn s.base s'.base a.Adds
  succeeded : ∀ u ∈ s'.base.succeeded, u ∈ s.base.succeeded ∨
    ∃ x replied r stage, a = .commitOutcome x replied ∧ s.calls x = .writing u r stage ∧
      r.row.status = .successful

theorem follows_of_base (hi : s.base.TablesInv) (hb : s'.base = s.base) : Follows s s' a where
  tables := hb ▸ hi
  turn := by
    rw [hb]
    exact ⟨none, turn_of_eq rfl rfl rfl rfl (.of_eq rfl) rfl rfl⟩
  edges := by
    rw [hb]
    exact edgeTurn_of_eq rfl rfl rfl
  succeeded u hu := .inl (hb ▸ hu)

/-- A party takes locks. -/
theorem follows_of_locks {holder : TaskId → Option ℕ} {owner : ℕ → Option ℕ}
    (hi : s.base.TablesInv) (hb : s'.base = { s.base with holder := holder, owner := owner })
    (hh : ∀ u y, s.base.holder u = some y → holder u = some y)
    (ho : ∀ w y, s.base.owner w = some y → owner w = some y) : Follows s s' a where
  tables := hb ▸ hi.hold holder owner
  turn := by
    rw [hb]
    exact ⟨none, .of_eq rfl, .still rfl rfl rfl, .of_eq rfl, fun u y hy _ => hh u y hy,
      fun w y hy _ => ho w y hy⟩
  edges := by
    rw [hb]
    exact edgeTurn_of_eq rfl rfl rfl
  succeeded u hu := by
    rw [hb] at hu
    exact .inl hu

theorem follows_of_step {b : WorkflowAction} (hi : s.base.TablesInv)
    (hb : s.base.step b = some s'.base) (hp : b.party = a.party) (hplain : b.WritesPlain = false)
    (hout : ∀ t c held now ending, b = .outcome t c held now ending → s.base.Beside b = true)
    (hadds : ∀ x task, b.Adds x task → a.Adds x task) : Follows s s' a where
  tables := hi.step hplain hb
  turn := ⟨_, hp ▸ WorkflowState.step_turn hb⟩
  edges := by
    have hedges := WorkflowState.step_edgeTurn hi.order hb
    refine ⟨hedges.declared, fun t ht => ?_, hedges.nextEdge, fun e' he' => ?_⟩
    · exact (hedges.born t ht).imp_right fun ⟨x, hadd⟩ => ⟨x, hadds x t hadd⟩
    · rcases hedges.edges e' he' with hold | ⟨x, hadd, hrest⟩
      · exact .inl hold
      · exact .inr ⟨x, hadds x _ hadd, hrest⟩
  succeeded u hu := .inl (WorkflowState.succeeded_beside hi.order hplain hout hb hu)

theorem Follows.unlock (h : Follows s s' a) (ha : a.party = some x) {t : ReleasingState}
    (hb : t.base = s'.base.unlock x) : Follows s t a where
  tables := hb ▸ h.tables.hold _ _
  turn := by
    obtain ⟨c, hturn⟩ := h.turn
    rw [ha] at hturn ⊢
    exact ⟨c, hb ▸ hturn.unlock⟩
  edges := by
    rw [hb]
    exact ⟨h.edges.declared, h.edges.born, h.edges.nextEdge, h.edges.edges⟩
  succeeded u hu := by
    rw [hb] at hu
    exact h.succeeded u hu

/-- The outcome of a node commits from a stage that has locked it. -/
theorem Inv.outcome (hi : s.Inv) (hcall : s.calls x = .writing t r stage)
    (hdone : stage.Done r.row.status = true) :
    s.Written x t r ∧ s.base.Commits t r.row.status stage := by
  have hok : s.CallOk x (.writing t r stage) := hcall ▸ hi.calls x
  obtain ⟨-, hwritten, hstage⟩ := hok
  refine ⟨hwritten, ?_⟩
  cases stage with
  | written => cases hdone
  | unrecorded => exact hstage
  | recorded =>
    have hfailed : r.row.status ≠ .successful := by simpa [OutcomeStage.Done] using hdone
    exact hfailed
  | marked pairs => exact hstage.2

/-- The task of an outcome has a node: its row could still move. -/
theorem Inv.noded (hi : s.Inv) (hw : s.Written x t r) : (s.base.nodeOf t).isSome := by
  obtain ⟨r₀, b, held, now, ending, hrow, hstep⟩ := hw.step
  have hwritable := (RowState.step_moves hstep).1
  have hst : s.base.status t = some r₀.row.status := by simp [WorkflowState.status, hrow]
  obtain ⟨k, hk, rfl⟩ := hi.tables.noded t _ hst fun hfin => by
    rcases hfin with h | h <;> simp [h, Status.Writable] at hwritable
  exact WorkflowState.nodeOf_isSome hk

theorem Inv.follows (hi : s.Inv) (hm : Moves s s' a) : Follows s s' a := by
  cases hm with
  | other b base hbeside hidle hb hs =>
    subst hs
    refine follows_of_step hi.tables hb rfl ?_ (fun _ _ _ _ _ _ => hbeside) ?_
    · cases b with
      | row t c => cases c <;> first | rfl | cases hbeside
      | _ => rfl
    · rintro x task ⟨call, inherited, now, rfl⟩
      cases hbeside
  | take x w name wanted hcall hown hs =>
    subst hs
    refine follows_of_locks hi.tables rfl (fun _ _ hy => hy) fun v y hy => ?_
    have hne : v ≠ w := by
      rintro rfl
      rw [hown] at hy
      cases hy
    exact (Function.update_of_ne hne ..).trans hy
  | write x t b held now ending r₀ r hcall hpass hfree hrow hstep hset hs =>
    subst hs
    refine follows_of_locks hi.tables rfl (fun v y hy => ?_) fun _ _ hy => hy
    have hne : v ≠ t := by
      rintro rfl
      rw [hfree] at hy
      cases hy
    exact (Function.update_of_ne hne ..).trans hy
  | advance x a b base before call hb hcall hadv hs =>
    subst hs
    obtain ⟨-, hpa, hpb⟩ := hadv.party
    refine follows_of_step hi.tables hb (hpb.trans hpa.symm) ?_ ?_ ?_
    · cases hadv <;> rfl
    · rintro t c held now ending rfl
      cases hadv
    · rintro y task ⟨call, inherited, now, rfl⟩
      cases hadv
  | commitAdd x w task call inherited now replied base hcall hb hs =>
    have hfollows : Follows s { s with base := base }
        (.commitAdd x task call inherited now replied) := by
      refine follows_of_step hi.tables hb rfl rfl ?_ ?_
      · rintro _ _ _ _ _ ⟨⟩
      · rintro y u ⟨call', inherited', now', heq⟩
        cases heq
        exact ⟨call, inherited, now, replied, rfl⟩
    subst hs
    exact hfollows.unlock rfl rfl
  | commitOutcome x replied t r stage hcall hdone hs =>
    obtain ⟨hw, hstage⟩ := hi.outcome hcall hdone
    obtain ⟨r₀, b, held, now, ending, hrow, hstep⟩ := hw.step
    have hat := WorkflowState.step_outcome hw.held hrow hstep hw.set (hi.noded hw) hstage
    have hunlocked : (s.base.unlock x).TablesInv := hi.tables.hold _ _
    have hedges := WorkflowState.step_edgeTurn hunlocked.order hat
    subst hs
    refine ⟨hunlocked.step rfl hat, ⟨none, WorkflowState.turn_withOutcome hw.held hrow hstep⟩,
      ⟨hedges.declared, fun v hv => ?_, hedges.nextEdge, fun e' he' => ?_⟩, fun u hu => ?_⟩
    · rcases hedges.born v hv with hold | ⟨y, _, _, _, hadd⟩
      · exact .inl hold
      · cases hadd
    · rcases hedges.edges e' he' with hold | ⟨y, ⟨_, _, _, hadd⟩, -⟩
      · exact .inl hold
      · cases hadd
    · obtain ⟨nodes, edges, hframe, -⟩ := s.base.withOutcome_frame t r stage
      have hput : u ∈ (s.base.putRow t r).succeeded := by
        change u ∈ (s.base.withOutcome t r stage).succeeded at hu
        rwa [hframe] at hu
      rcases (WorkflowState.mem_succeeded_putRow s.base t u r).mp hput with hold | ⟨rfl, hwon⟩
      · exact .inl hold
      · exact .inr ⟨x, replied, r, stage, rfl, hcall, hwon⟩
  | markProven x locked t base hcall hb hs =>
    subst hs
    refine follows_of_step hi.tables hb rfl rfl ?_ ?_
    · rintro _ _ _ _ _ ⟨⟩
    · rintro y u ⟨_, _, _, ⟨⟩⟩
  | giveUp x left chunk i base hcall hlast hb hs =>
    subst hs
    refine follows_of_step hi.tables hb rfl rfl ?_ ?_
    · rintro _ _ _ _ _ ⟨⟩
    · rintro y u ⟨_, _, _, ⟨⟩⟩
  | fail x base hb hs =>
    subst hs
    refine follows_of_step hi.tables hb rfl rfl ?_ ?_
    · rintro _ _ _ _ _ ⟨⟩
    · rintro y u ⟨_, _, _, ⟨⟩⟩
  | lockUpstream x w t unlocked hcall hfree hs => exact follows_of_base hi.tables (hs ▸ rfl)
  | lockNode x t r hcall hfree hs => exact follows_of_base hi.tables (hs ▸ rfl)
  | noNode x t r hcall hnode hs => exact follows_of_base hi.tables (hs ▸ rfl)
  | readEdges x t r hcall hset hs => exact follows_of_base hi.tables (hs ▸ rfl)
  | takeChunk x size left hcall hs => exact follows_of_base hi.tables (hs ▸ rfl)
  | finish x hcall hs => exact follows_of_base hi.tables (hs ▸ rfl)

/-- What a step leaves of another party's call, beside what the call says itself. -/
structure Leaves (s s' : ReleasingState) (x : ℕ) : Prop where
  pass : s'.base.passes x = s.base.passes x
  node : ∀ u, s.nodeHolder u = some x → s'.nodeHolder u = some x

theorem Moves.call (hm : Moves s s' a) (hx : a.caller ≠ some x) : s'.calls x = s.calls x := by
  have hne : ∀ y, a.caller = some y → x ≠ y := fun y hy he => hx (he ▸ hy)
  cases hm with
  | other _ _ _ _ _ hs =>
    subst hs
    rfl
  | advance y a b base before call hb hcall hadv hs =>
    subst hs
    exact Function.update_of_ne (hne y hadv.party.1) ..
  | take _ _ _ _ _ _ hs | lockUpstream _ _ _ _ _ _ hs | commitAdd _ _ _ _ _ _ _ _ _ _ hs
  | write _ _ _ _ _ _ _ _ _ _ _ _ _ _ hs | lockNode _ _ _ _ _ hs | noNode _ _ _ _ _ hs
  | readEdges _ _ _ _ _ hs | commitOutcome _ _ _ _ _ _ _ hs | markProven _ _ _ _ _ _ hs
  | takeChunk _ _ _ _ hs | giveUp _ _ _ _ _ _ _ _ hs | finish _ _ hs | fail _ _ _ hs =>
    subst hs
    exact Function.update_of_ne (hne _ rfl) ..

theorem Moves.leaves (hm : Moves s s' a) (hx : a.caller ≠ some x)
    (hbusy : (s.calls x).isIdle = false) : a.party ≠ some x ∧ Leaves s s' x := by
  have hne : ∀ y, a.caller = some y → x ≠ y := fun y hy he => hx (he ▸ hy)
  have hunlocked : ∀ y, a.caller = some y → ∀ u, s.nodeHolder u = some x →
      s.unlocked y u = some x := by
    intro y hy u hu
    refine (if_neg ?_).trans hu
    rw [hu]
    simpa using hne y hy
  have hlock : ∀ y t, a.caller = some y → (s.nodeHolder t = none ∨ s.nodeHolder t = some y) →
      ∀ u, s.nodeHolder u = some x → Function.update s.nodeHolder t (some y) u = some x := by
    intro y t hy hfree u hu
    have hut : u ≠ t := by
      rintro rfl
      rw [hu] at hfree
      rcases hfree with hfree | hfree
      · cases hfree
      · exact hne y hy (Option.some.inj hfree)
    exact (Function.update_of_ne hut ..).trans hu
  cases hm with
  | other b base hbeside hidle hb hs =>
    have hparty : b.party ≠ some x := by
      intro hp
      rw [hidle x hp] at hbusy
      cases hbusy
    subst hs
    exact ⟨hparty, WorkflowState.passes_step hb hparty, fun _ hu => hu⟩
  | take y w name wanted hcall hown hs =>
    subst hs
    exact ⟨hx, rfl, fun _ hu => hu⟩
  | lockUpstream y w t unlocked hcall hfree hs =>
    subst hs
    exact ⟨hx, rfl, hlock y t rfl hfree⟩
  | advance y a b base before call hb hcall hadv hs =>
    subst hs
    obtain ⟨hcaller, hpa, hpb⟩ := hadv.party
    have hyx : some y ≠ some x := hcaller ▸ hx
    exact ⟨hpa ▸ hyx, WorkflowState.passes_step hb (hpb ▸ hyx), fun _ hu => hu⟩
  | commitAdd y w task call inherited now replied base hcall hb hs =>
    subst hs
    have hpass : base.passes x = s.base.passes x := WorkflowState.passes_step hb hx
    exact ⟨hx, hpass, hunlocked y rfl⟩
  | write y t b held now ending r₀ r hcall hpass hfree hrow hstep hset hs =>
    subst hs
    exact ⟨hx, rfl, fun _ hu => hu⟩
  | lockNode y t r hcall hfree hs =>
    subst hs
    exact ⟨hx, rfl, hlock y t rfl hfree⟩
  | noNode y t r hcall hnode hs =>
    subst hs
    exact ⟨hx, rfl, fun _ hu => hu⟩
  | readEdges y t r hcall hset' hs =>
    subst hs
    exact ⟨hx, rfl, fun _ hu => hu⟩
  | commitOutcome y replied t r stage hcall hdone hs =>
    subst hs
    obtain ⟨nodes, edges, hframe, -⟩ := s.base.withOutcome_frame t r stage
    refine ⟨hx, ?_, hunlocked y rfl⟩
    show (s.base.withOutcome t r stage).passes x = s.base.passes x
    rw [hframe]
    rfl
  | markProven y locked t base hcall hb hs =>
    subst hs
    exact ⟨hx, WorkflowState.passes_step hb hx, fun _ hu => hu⟩
  | takeChunk y size left hcall hs =>
    subst hs
    exact ⟨hx, rfl, fun _ hu => hu⟩
  | giveUp y left chunk i base hcall hlast hb hs =>
    subst hs
    exact ⟨hx, WorkflowState.passes_step hb hx, fun _ hu => hu⟩
  | finish y hcall hs =>
    subst hs
    exact ⟨hx, rfl, fun _ hu => hu⟩
  | fail y base hb hs =>
    subst hs
    exact ⟨hx, WorkflowState.passes_step hb hx, hunlocked y rfl⟩

/-- What was given up stays so. -/
theorem Moves.dropped (hm : Moves s s' a) : ∀ d ∈ s.dropped, d ∈ s'.dropped := by
  intro d hd
  cases hm with
  | commitAdd y w task call inherited now replied base hcall hb hs =>
    subst hs
    cases replied with
    | true => exact hd
    | false => exact List.mem_append_right _ hd
  | commitOutcome y replied t r stage hcall hdone hs =>
    subst hs
    cases replied with
    | true => exact hd
    | false => exact List.mem_append_right _ hd
  | markProven _ _ _ _ _ _ hs | giveUp _ _ _ _ _ _ _ _ hs | fail _ _ _ hs =>
    subst hs
    exact List.mem_append_right _ hd
  | other _ _ _ _ _ hs | take _ _ _ _ _ _ hs | lockUpstream _ _ _ _ _ _ hs
  | advance _ _ _ _ _ _ _ _ _ hs | write _ _ _ _ _ _ _ _ _ _ _ _ _ _ hs
  | lockNode _ _ _ _ _ hs | noNode _ _ _ _ _ hs | readEdges _ _ _ _ _ hs
  | takeChunk _ _ _ _ hs | finish _ _ hs =>
    subst hs
    exact hd

/-- What is known to have succeeded after a step was known before it, unless the step is the COMMIT
of that outcome. -/
theorem Follows.before (hf : Follows s s' a) (hi : s.base.TablesInv)
    (h : s'.base.SucceededOrRecorded u) : s.base.SucceededOrRecorded u ∨
      ∃ x replied r stage, a = .commitOutcome x replied ∧ s.calls x = .writing u r stage ∧
        r.row.status = .successful := by
  obtain ⟨c, hturn⟩ := hf.turn
  rcases hf.succeeded u (h.succeeded hf.tables.order) with hold | hnow
  · exact .inl (h.before hi.last hi.records hturn hold)
  · exact .inr hnow

/-- The row of an outcome's task stands still under its lock. -/
theorem Follows.written (hf : Follows s s' a) (hi : s.base.TablesInv) (hx : a.party ≠ some x)
    (h : s.Written x t r) : s'.Written x t r := by
  obtain ⟨c, hturn⟩ := hf.turn
  obtain ⟨r₀, b, held, now, ending, hrow, hstep⟩ := h.step
  refine ⟨hturn.holder t x h.held hx, h.set, r₀, b, held, now, ending, ?_, hstep⟩
  cases hturn.rows t with
  | same hsame => exact hsame.trans hrow
  | moved _ _ _ _ hfree => exact absurd (hfree x h.held) hx
  | gone _ hfree =>
    have hheld := h.held
    rw [hfree] at hheld
    cases hheld
  | born hnew =>
    refine absurd (hi.records.rowsUsed t ?_) hnew
    simp [hrow]

/-- Nobody adds an edge out of a task whose node is locked. -/
theorem Inv.readsOut {pairs : List (ℕ × TaskId)} (hi : s.Inv) (hm : Moves s s' a)
    (hheld : s.nodeHolder t = some x) (hx : a.caller ≠ some x) (h : s.base.ReadsOut t pairs) :
    s'.base.ReadsOut t pairs := by
  have hf := hi.follows hm
  refine ⟨fun e' he' hup hopen => ?_, fun q hq => ?_⟩
  · rcases hf.edges.edges e' he' with ⟨e, he, hpk, hup', hdown, hsat⟩ | ⟨y, hadd, -, -, -, hin, -⟩
    · rw [hpk, hdown]
      refine h.all e he (hup'.symm.trans hup) ?_
      cases hsat' : e.satisfied with
      | false => rfl
      | true =>
        rw [hsat hsat'] at hopen
        cases hopen
    · obtain ⟨call, inherited, now, replied, rfl⟩ := hadd
      cases hm with
      | advance _ _ _ _ _ _ _ _ hadv => cases hadv
      | commitAdd _ w _ _ _ _ _ base hcall =>
        have hlocked : s.CallOk y (.adding w []) := hcall ▸ hi.calls y
        rcases hlocked e'.upstream hin with hnone | hy
        · cases hnone
        · rw [hup, hheld] at hy
          exact absurd hy.symm hx
  · obtain ⟨hlt, hall⟩ := h.only q hq
    refine ⟨hlt.trans_le hf.edges.nextEdge, fun e' he' hpk => ?_⟩
    rcases hf.edges.edges e' he' with ⟨e, he, hpk', hup, -⟩ | ⟨_, -, -, hge, -⟩
    · exact hup.trans (hall e he (hpk'.symm.trans hpk))
    · omega

theorem Inv.callOk_kept (hi : s.Inv) (hm : Moves s s' a) (hx : a.caller ≠ some x)
    (hbusy : (s.calls x).isIdle = false) : s'.CallOk x (s'.calls x) := by
  have hf := hi.follows hm
  obtain ⟨hpx, hl⟩ := hm.leaves hx hbusy
  rw [hm.call hx]
  have hok := hi.calls x
  cases hcall : s.calls x with
  | adding w unlocked =>
    rw [hcall] at hok
    intro u hu
    rw [hl.pass] at hu
    exact (hok u hu).imp_right (hl.node u)
  | rechecking t =>
    rw [hcall] at hok
    obtain ⟨ds, hds⟩ := Option.ne_none_iff_exists'.mp hok
    intro hnone
    rw [hf.edges.declared t ds hds] at hnone
    cases hnone
  | writing t r stage =>
    rw [hcall] at hok
    obtain ⟨hpass, hw, hstage⟩ := hok
    refine ⟨hl.pass.trans hpass, hf.written hi.tables hpx hw, ?_⟩
    cases stage with
    | written => trivial
    | unrecorded => exact hstage
    | recorded => exact hl.node t hstage
    | marked pairs =>
      obtain ⟨hheld, hwon, hread⟩ := hstage
      exact ⟨hl.node t hheld, hwon, hi.readsOut hm hheld hx hread⟩
  | owing left =>
    rw [hcall] at hok
    exact hl.pass.trans hok
  | _ => trivial

theorem openEdgesOut_readsOut (ho : s.base.OrderInv) (t : TaskId) :
    s.base.ReadsOut t (s.base.openEdgesOut t) := by
  refine ⟨fun e he hup hopen => ?_, fun q hq => ?_⟩
  · exact List.mem_map.mpr ⟨e, List.mem_filter.mpr ⟨he, by simp [hup, hopen]⟩, rfl⟩
  · obtain ⟨e, he, rfl⟩ := List.mem_map.mp hq
    obtain ⟨hmem, hkeep⟩ := List.mem_filter.mp he
    rw [decide_eq_true_eq] at hkeep
    exact ⟨ho.edgeKeys e hmem, fun e' he' hpk => (ho.edgeKey e' he' e hmem hpk).trans hkeep.1⟩

theorem Inv.callOk_own (hi : s.Inv) (hm : Moves s s' a) (hx : a.caller = some x) :
    s'.CallOk x (s'.calls x) := by
  have hf := hi.follows hm
  have hok := hi.calls x
  have hself : ∀ call, (s.setCall x call).calls x = call := fun _ => Function.update_self ..
  cases hm with
  | other b base hbeside hidle hb hs => cases hx
  | take y w name wanted hcall hown hs =>
    cases hx
    subst hs
    show CallOk _ x ((s.setCall x _).calls x)
    rw [hself]
    trivial
  | lockUpstream y w t unlocked hcall hfree hs =>
    cases hx
    subst hs
    show CallOk _ x ((s.setCall x _).calls x)
    rw [hself]
    rw [hcall] at hok
    intro u hu
    by_cases hut : u = t
    · right
      rw [hut]
      exact Function.update_self ..
    · rcases hok u hu with hmem | hheld
      · exact .inl ((List.mem_erase_of_ne hut).mpr hmem)
      · exact .inr ((Function.update_of_ne hut ..).trans hheld)
  | advance y a b base before call hb hcall hadv hs =>
    obtain ⟨hcaller, -, -⟩ := hadv.party
    obtain rfl : y = x := Option.some.inj (hcaller.symm.trans hx)
    subst hs
    show CallOk _ y ((s.setCall y _).calls y)
    rw [hself]
    rw [hcall] at hok
    cases hadv with
    | resolve w name wanted =>
      simp only [WorkflowState.step] at hb
      split at hb
      · next upstream hp hres =>
        obtain rfl := Option.some.inj hb
        intro u hu
        left
        rw [hres]
        simpa [WorkflowState.passes_setPass, WorkflowPass.upstream] using hu
      · cases hb
    | readSucceeded w size =>
      simp only [WorkflowState.step] at hb
      split at hb
      · next w' name upstream unread won hp =>
        obtain rfl := Option.some.inj hb
        intro u hu
        refine hok u ?_
        rw [hp]
        simpa [WorkflowState.passes_setPass, WorkflowPass.upstream] using hu
      · cases hb
    | recheck t | proveRows t size | proveRecords t size =>
      obtain ⟨ds, hds⟩ := Option.ne_none_iff_exists'.mp hok
      intro hnone
      have hkept := hf.edges.declared t ds hds
      rw [show base.declared t = none from hnone] at hkept
      cases hkept
    | releaseMany left chunk i now =>
      simp only [WorkflowState.step] at hb
      split at hb
      · obtain ⟨-, hb⟩ := Option.ite_none_right_eq_some.mp hb
        obtain rfl := Option.some.inj hb
        exact Function.update_self ..
      · cases hb
    | _ => trivial
  | commitAdd y w task call inherited now replied base hcall hb hs =>
    cases hx
    subst hs
    have hcalls : (s.commit x base (if (s.base.passes x).released then .idle else .rechecking task)
        replied).calls x = if replied then
          (if (s.base.passes x).released then .idle else .rechecking task) else .idle :=
      Function.update_self ..
    rw [hcalls]
    by_cases hreplied : replied = true
    · rw [if_pos hreplied]
      split_ifs
      · trivial
      · simp only [WorkflowState.step] at hb
        split at hb
        · split at hb
          · obtain ⟨-, hb⟩ := Option.ite_none_right_eq_some.mp hb
            obtain rfl := Option.some.inj hb
            show (Function.update s.base.declared task _ task) ≠ none
            rw [Function.update_self]
            exact Option.some_ne_none _
          · cases hb
        · cases hb
    · rw [if_neg hreplied]
      trivial
  | write y t b held now ending r₀ r hcall hpass hfree hrow hstep hset hs =>
    cases hx
    subst hs
    show CallOk _ x ((s.setCall x _).calls x)
    rw [hself]
    exact ⟨hpass, ⟨Function.update_self .., hset, r₀, b, held, now, ending, hrow, hstep⟩, trivial⟩
  | lockNode y t r hcall hfree hs =>
    cases hx
    subst hs
    show CallOk _ x ((s.setCall x _).calls x)
    rw [hself]
    rw [hcall] at hok
    obtain ⟨hpass, hw, -⟩ := hok
    exact ⟨hpass, ⟨hw.held, hw.set, hw.step⟩, Function.update_self ..⟩
  | noNode y t r hcall hnode hs =>
    cases hx
    rw [hcall] at hok
    have hfound := hi.noded hok.2.1
    rw [hnode] at hfound
    cases hfound
  | readEdges y t r hcall hset hs =>
    cases hx
    subst hs
    rw [hself]
    rw [hcall] at hok
    obtain ⟨hpass, hw, hnode⟩ := hok
    exact ⟨hpass, ⟨hw.held, hw.set, hw.step⟩, hnode, hset,
      openEdgesOut_readsOut hi.tables.order t⟩
  | commitOutcome y replied t r stage hcall hdone hs =>
    cases hx
    subst hs
    rw [hcall] at hok
    have hcalls : (s.commit x (s.base.withOutcome t r stage) (.owing stage.downstream)
        replied).calls x = if replied then .owing stage.downstream else .idle :=
      Function.update_self ..
    rw [hcalls]
    split_ifs
    · obtain ⟨nodes, edges, hframe, -⟩ := s.base.withOutcome_frame t r stage
      show (s.base.withOutcome t r stage).passes x = .idle
      rw [hframe]
      exact hok.1
    · trivial
  | markProven y locked t base hcall hb hs =>
    cases hx
    subst hs
    show CallOk _ x ((s.setCall x _).calls x)
    rw [hself]
    simp only [WorkflowState.step] at hb
    split at hb
    · obtain rfl := Option.some.inj hb
      exact Function.update_self ..
    · cases hb
  | takeChunk y size left hcall hs =>
    cases hx
    subst hs
    rw [hself]
    trivial
  | giveUp y left chunk i base hcall hlast hb hs =>
    cases hx
    subst hs
    show CallOk _ x ((s.setCall x _).calls x)
    rw [hself]
    obtain rfl := Option.some.inj hb
    exact Function.update_self ..
  | finish y hcall hs =>
    cases hx
    subst hs
    rw [hself]
    trivial
  | fail y base hb hs =>
    cases hx
    subst hs
    show CallOk _ x ((s.setCall x _).calls x)
    rw [hself]
    trivial

end ReleasingState

end DjangoOx
