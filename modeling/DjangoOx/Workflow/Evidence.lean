import DjangoOx.Task.Final
import DjangoOx.Workflow.Steps

/-! What the parties to a workflow have read of it, and the writes that keep it true. -/
namespace DjangoOx

open Machine

namespace WorkflowState

variable {s s' : WorkflowState} {x : ℕ} {t u : TaskId} {p : WorkflowPass}

/-- Nothing holds the task back: every edge into it is marked. -/
def Open (s : WorkflowState) (t : TaskId) : Prop :=
  ∀ e ∈ s.edges, e.downstream = t → e.satisfied = true

/-- A record read off a row: its node is the task's, and it says SUCCESSFUL of a success only. -/
def RecordOk (s : WorkflowState) (r : ℕ × TaskId × Status × ℕ) : Prop :=
  r.1 < s.nextNode ∧ (∀ n ∈ s.nodes, n.pk = r.1 → n.task = r.2.1) ∧
    (r.2.2.1 = .successful → r.2.1 ∈ s.succeeded)

/-- The evidence a pass carries is still good. -/
def PassOk (s : WorkflowState) : WorkflowPass → Prop
  | .adding _ _ _ _ succeeded => ∀ u ∈ succeeded, u ∈ s.succeeded
  | .proving edges _ _ proven => (∀ u ∈ proven, u ∈ s.succeeded) ∧
      ∀ e ∈ edges, e.1 < s.nextEdge ∧ ∀ e' ∈ s.edges, e'.pk = e.1 → e'.upstream = e.2.1
  | .repairing records => ∀ r ∈ records, s.RecordOk r
  | .looking nodes records => (∀ n ∈ nodes, n.1 < s.nextNode ∧
      ∀ n' ∈ s.nodes, n'.pk = n.1 → n'.task = n.2.1) ∧ ∀ r ∈ records, s.RecordOk r
  | .releasing chunk => ∀ t ∈ chunk, s.declared t ≠ none
  | .freed free => ∀ t ∈ free, s.declared t ≠ none ∧ s.Open t
  | .paired pairs => ∀ p ∈ pairs, s.declared p.1 ≠ none ∧ s.Open p.1
  | .chunked _ chunk => ∀ c ∈ chunk, c.2.2 = some .successful → c.2.1 ∈ s.succeeded
  | _ => True

structure OrderInv (s : WorkflowState) : Prop where
  rowsUsed : ∀ t, s.rows t ≠ none → t ∈ s.used
  declaredUsed : ∀ t, s.declared t ≠ none → t ∈ s.used
  won : ∀ t, s.status t = some .successful → t ∈ s.succeeded
  records : ∀ n ∈ s.nodes, n.outcome = some .successful → n.task ∈ s.succeeded
  marks : ∀ e ∈ s.edges, e.satisfied = true → e.upstream ∈ s.succeeded
  into : ∀ e ∈ s.edges, s.declared e.downstream ≠ none
  /-- The edges into a node stay while its row can still move. -/
  gates : ∀ t ds st, s.declared t = some ds → s.status t = some st → ¬ st.Retirable →
    ∀ u ∈ ds, ∃ e ∈ s.edges, e.upstream = u ∧ e.downstream = t
  /-- A row that was started had nothing to hold it back. -/
  started : ∀ t st, s.status t = some st → st ≠ .waiting → st ≠ .discarded → s.Open t
  nodeKeys : ∀ n ∈ s.nodes, n.pk < s.nextNode
  edgeKeys : ∀ e ∈ s.edges, e.pk < s.nextEdge
  nodeKey : ∀ n ∈ s.nodes, ∀ n' ∈ s.nodes, n.pk = n'.pk → n.task = n'.task
  edgeKey : ∀ e ∈ s.edges, ∀ e' ∈ s.edges, e.pk = e'.pk → e.upstream = e'.upstream
  passes : ∀ x, s.PassOk (s.passes x)

/-- What a step leaves of the evidence others carry: marks stay, and new rows get new keys. -/
structure Evolves (s s' : WorkflowState) : Prop where
  succeeded : ∀ t ∈ s.succeeded, t ∈ s'.succeeded
  declared : ∀ t, s.declared t ≠ none → s'.declared t ≠ none
  nextNode : s.nextNode ≤ s'.nextNode
  nextEdge : s.nextEdge ≤ s'.nextEdge
  nodes : ∀ n' ∈ s'.nodes, (∃ n ∈ s.nodes, n'.pk = n.pk ∧ n'.task = n.task) ∨ s.nextNode ≤ n'.pk
  edges : ∀ e' ∈ s'.edges, (∃ e ∈ s.edges, e'.pk = e.pk ∧ e'.upstream = e.upstream ∧
    e'.downstream = e.downstream ∧ (e.satisfied = true → e'.satisfied = true)) ∨
      s.nextEdge ≤ e'.pk ∧ s.declared e'.downstream = none

theorem Open.mono (h : s.Open t) (hd : s.declared t ≠ none) (he : s.Evolves s') : s'.Open t := by
  intro e' he' hdown
  rcases he.edges e' he' with ⟨e, hmem, -, -, hsame, hsat⟩ | ⟨-, hnew⟩
  · exact hsat (h e hmem (hsame.symm.trans hdown))
  · exact absurd (hdown ▸ hnew) hd

theorem RecordOk.mono {r : ℕ × TaskId × Status × ℕ} (h : s.RecordOk r) (he : s.Evolves s') :
    s'.RecordOk r := by
  obtain ⟨hlt, hnode, hsucc⟩ := h
  refine ⟨by have := he.nextNode; omega, fun n' hn' hpk => ?_, fun hr => he.succeeded _ (hsucc hr)⟩
  rcases he.nodes n' hn' with ⟨n, hn, hkey, htask⟩ | hnew
  · exact htask.trans (hnode n hn (hkey.symm.trans hpk))
  · omega

theorem PassOk.mono (h : s.PassOk p) (he : s.Evolves s') : s'.PassOk p := by
  cases p with
  | adding w name upstream unread succeeded => exact fun u hu => he.succeeded u (h u hu)
  | proving edges unread gone proven =>
    refine ⟨fun u hu => he.succeeded u (h.1 u hu), fun e hmem => ?_⟩
    obtain ⟨hlt, hup⟩ := h.2 e hmem
    refine ⟨by have := he.nextEdge; omega, fun e' he' hpk => ?_⟩
    rcases he.edges e' he' with ⟨e₀, h₀, hkey, hsame, -⟩ | ⟨hnew, -⟩
    · exact hsame.trans (hup e₀ h₀ (hkey.symm.trans hpk))
    · omega
  | repairing records => exact fun r hr => (h r hr).mono he
  | looking nodes records =>
    refine ⟨fun n hn => ?_, fun r hr => (h.2 r hr).mono he⟩
    obtain ⟨hlt, htask⟩ := h.1 n hn
    refine ⟨by have := he.nextNode; omega, fun n' hn' hpk => ?_⟩
    rcases he.nodes n' hn' with ⟨n₀, h₀, hkey, hsame⟩ | hnew
    · exact hsame.trans (htask n₀ h₀ (hkey.symm.trans hpk))
    · omega
  | releasing chunk => exact fun t ht => he.declared t (h t ht)
  | freed free => exact fun t ht => ⟨he.declared t (h t ht).1, (h t ht).2.mono (h t ht).1 he⟩
  | paired pairs => exact fun q hq => ⟨he.declared _ (h q hq).1, (h q hq).2.mono (h q hq).1 he⟩
  | chunked w chunk => exact fun c hc hs => he.succeeded _ (h c hc hs)
  | _ => trivial

theorem Evolves.of_eq (hs : s'.succeeded = s.succeeded) (hd : s'.declared = s.declared)
    (hn : s'.nextNode = s.nextNode) (he : s'.nextEdge = s.nextEdge) (hnodes : s'.nodes = s.nodes)
    (hedges : s'.edges = s.edges) : s.Evolves s' where
  succeeded := by simp [hs]
  declared := by simp [hd]
  nextNode := hn ▸ le_rfl
  nextEdge := he ▸ le_rfl
  nodes n' h := .inl ⟨n', hnodes ▸ h, rfl, rfl⟩
  edges e' h := .inl ⟨e', hedges ▸ h, rfl, rfl, rfl, id⟩

/-- A step that touches no row, node or edge. -/
theorem OrderInv.of_eq (hi : s.OrderInv) (hr : s'.rows = s.rows) (hu : s'.used = s.used)
    (hs : s'.succeeded = s.succeeded) (hd : s'.declared = s.declared)
    (hn : s'.nextNode = s.nextNode) (he : s'.nextEdge = s.nextEdge) (hnodes : s'.nodes = s.nodes)
    (hedges : s'.edges = s.edges) (hp : ∀ x, s.PassOk (s'.passes x)) : s'.OrderInv := by
  have hst : ∀ t, s'.status t = s.status t := by simp [status, hr]
  have hev : s.Evolves s' := .of_eq hs hd hn he hnodes hedges
  refine ⟨?_, ?_, ?_, ?_, ?_, ?_, ?_, ?_, ?_, ?_, ?_, ?_, fun x => (hp x).mono hev⟩
  · simpa only [hr, hu] using hi.rowsUsed
  · simpa only [hd, hu] using hi.declaredUsed
  · simpa only [hst, hs] using hi.won
  · simpa only [hnodes, hs] using hi.records
  · simpa only [hedges, hs] using hi.marks
  · simpa only [hedges, hd] using hi.into
  · simpa only [hedges, hd, hst] using hi.gates
  · simpa only [hst, Open, hedges] using hi.started
  · simpa only [hnodes, hn] using hi.nodeKeys
  · simpa only [hedges, he] using hi.edgeKeys
  · simpa only [hnodes] using hi.nodeKey
  · simpa only [hedges] using hi.edgeKey

theorem OrderInv.setPass (hi : s.OrderInv) (hp : s.PassOk p) : (s.setPass x p).OrderInv := by
  refine hi.of_eq rfl rfl rfl rfl rfl rfl rfl rfl fun y => ?_
  rw [passes_setPass]
  split_ifs
  · exact hp
  · exact hi.passes y

/-- A row moves by a step that is no revival; a release only when nothing holds the task back. -/
theorem OrderInv.putRow (hi : s.OrderInv) {r r' : RowState} {a : RowAction}
    (hr : s.rows t = some r) (ha : r.step a = some r') (hrev : a.IsRevive = false)
    (hrel : a.IsRelease = true → s.Open t) : (s.putRow t r').OrderInv := by
  have hold : s.status t = some r.row.status := by simp [status, hr]
  have hev : s.Evolves (s.putRow t r') := by
    refine ⟨fun u hu => mem_succeeded_putRow s t u r' |>.mpr (.inl hu), fun _ h => h, le_rfl, le_rfl,
      fun n h => .inl ⟨n, h, rfl, rfl⟩, fun e h => .inl ⟨e, h, rfl, rfl, rfl, id⟩⟩
  refine ⟨fun u hu => ?_, hi.declaredUsed, fun u hu => ?_, fun n hn h => ?_, fun e he h => ?_,
    hi.into, fun u ds st hd hst hret => ?_, fun u st hst hw hdisc => ?_, hi.nodeKeys, hi.edgeKeys,
    hi.nodeKey, hi.edgeKey, fun y => (hi.passes y).mono hev⟩
  · by_cases he : u = t
    · exact he ▸ hi.rowsUsed t (by simp [hr])
    · rw [rows_putRow, if_neg he] at hu
      exact hi.rowsUsed u hu
  · rw [status_putRow] at hu
    rw [mem_succeeded_putRow]
    split_ifs at hu with he
    · exact .inr ⟨he, Option.some.inj hu⟩
    · exact .inl (hi.won u hu)
  · exact hev.succeeded _ (hi.records n hn h)
  · exact hev.succeeded _ (hi.marks e he h)
  · rw [status_putRow] at hst
    split_ifs at hst with he
    · subst he
      obtain rfl := Option.some.inj hst
      refine hi.gates u ds r.row.status hd hold fun hfin => hret ?_
      rwa [RowState.step_final hrev ha hfin]
    · exact hi.gates u ds st hd hst hret
  · rw [status_putRow] at hst
    split_ifs at hst with he
    · subst he
      obtain rfl := Option.some.inj hst
      by_cases hrelease : a.IsRelease = true
      · exact hrel hrelease
      · by_cases hidle : r.row.status = .waiting ∨ r.row.status = .discarded
        · have := RowState.step_unstarted hrev (by simpa using hrelease) ha hidle
          exact absurd this (by simp [hw, hdisc])
        · rw [not_or] at hidle
          exact hi.started u _ hold hidle.1 hidle.2
    · exact hi.started u st hst hw hdisc

/-- Edges are marked whose upstreams have succeeded. -/
theorem OrderInv.mark (hi : s.OrderInv) {f : OxpullWorkflowEdge → OxpullWorkflowEdge}
    (hf : ∀ e ∈ s.edges, f e = e ∨ e.upstream ∈ s.succeeded ∧ f e = { e with satisfied := true }) :
    OrderInv { s with edges := s.edges.map f } := by
  have hsame : ∀ e ∈ s.edges, (f e).pk = e.pk ∧ (f e).upstream = e.upstream ∧
      (f e).downstream = e.downstream ∧ (e.satisfied = true → (f e).satisfied = true) := by
    intro e he
    rcases hf e he with h | ⟨-, h⟩ <;> simp [h]
  have hmem : ∀ e' ∈ s.edges.map f, ∃ e ∈ s.edges, f e = e' := fun e' h => List.mem_map.mp h
  have hev : s.Evolves { s with edges := s.edges.map f } := by
    refine ⟨fun _ h => h, fun _ h => h, le_rfl, le_rfl, fun n h => .inl ⟨n, h, rfl, rfl⟩,
      fun e' h => .inl ?_⟩
    obtain ⟨e, he, rfl⟩ := hmem e' h
    exact ⟨e, he, hsame e he⟩
  have hopen : ∀ t, s.Open t → Open { s with edges := s.edges.map f } t := by
    intro t h e' he' hdown
    obtain ⟨e, he, rfl⟩ := hmem e' he'
    obtain ⟨-, -, hd, hsat⟩ := hsame e he
    exact hsat (h e he (hd.symm.trans hdown))
  refine ⟨hi.rowsUsed, hi.declaredUsed, hi.won, hi.records, fun e' he' h => ?_, fun e' he' => ?_,
    fun t ds st hd hst hret u hu => ?_, fun t st hst hw hdisc => hopen t (hi.started t st hst hw hdisc),
    hi.nodeKeys, fun e' he' => ?_, hi.nodeKey, fun e₁ h₁ e₂ h₂ hpk => ?_,
    fun y => (hi.passes y).mono hev⟩
  · obtain ⟨e, he, rfl⟩ := hmem e' he'
    rcases hf e he with hfe | ⟨hup, hfe⟩
    · rw [hfe] at h ⊢
      exact hi.marks e he h
    · rw [hfe]
      exact hup
  · obtain ⟨e, he, rfl⟩ := hmem e' he'
    rw [(hsame e he).2.2.1]
    exact hi.into e he
  · obtain ⟨e, he, hup, hdown⟩ := hi.gates t ds st hd hst hret u hu
    obtain ⟨-, hu', hd', -⟩ := hsame e he
    exact ⟨f e, List.mem_map_of_mem he, hu'.trans hup, hd'.trans hdown⟩
  · obtain ⟨e, he, rfl⟩ := hmem e' he'
    rw [(hsame e he).1]
    exact hi.edgeKeys e he
  · obtain ⟨a, ha, rfl⟩ := hmem e₁ h₁
    obtain ⟨b, hb, rfl⟩ := hmem e₂ h₂
    obtain ⟨ka, ua, -⟩ := hsame a ha
    obtain ⟨kb, ub, -⟩ := hsame b hb
    rw [ua, ub]
    exact hi.edgeKey a ha b hb (ka.symm.trans (hpk.trans kb))

/-- Records are written, SUCCESSFUL on nodes of tasks that have succeeded. -/
theorem OrderInv.renode (hi : s.OrderInv) {nodes : List OxpullWorkflowNode}
    (hn : ∀ n' ∈ nodes, ∃ n ∈ s.nodes, n'.pk = n.pk ∧ n'.task = n.task ∧
      (n'.outcome = n.outcome ∨ (n'.outcome = some .successful → n.task ∈ s.succeeded))) :
    OrderInv { s with nodes := nodes } := by
  have hev : s.Evolves { s with nodes := nodes } := by
    refine ⟨fun _ h => h, fun _ h => h, le_rfl, le_rfl, fun n' h => .inl ?_,
      fun e h => .inl ⟨e, h, rfl, rfl, rfl, id⟩⟩
    obtain ⟨n, hmem, hpk, htask, -⟩ := hn n' h
    exact ⟨n, hmem, hpk, htask⟩
  refine ⟨hi.rowsUsed, hi.declaredUsed, hi.won, fun n' hn' h => ?_, hi.marks, hi.into, hi.gates,
    hi.started, fun n' hn' => ?_, hi.edgeKeys, fun n₁ h₁ n₂ h₂ hpk => ?_, hi.edgeKey,
    fun y => (hi.passes y).mono hev⟩
  · obtain ⟨n, hmem, -, htask, hout | hout⟩ := hn n' hn'
    · rw [htask]
      exact hi.records n hmem (hout ▸ h)
    · rw [htask]
      exact hout h
  · obtain ⟨n, hmem, hpk, -⟩ := hn n' hn'
    rw [hpk]
    exact hi.nodeKeys n hmem
  · obtain ⟨a, ha, ka, ta, -⟩ := hn n₁ h₁
    obtain ⟨b, hb, kb, tb, -⟩ := hn n₂ h₂
    rw [ta, tb]
    exact hi.nodeKey a ha b hb (ka.symm.trans (hpk.trans kb))

theorem OrderInv.update (hi : s.OrderInv) {a : RowAction} (hrev : a.IsRevive = false)
    (hrel : a.IsRelease = true → s.Open t) : (s.update t a).OrderInv := by
  rcases update_cases s t a with h | ⟨r, r', hr, ha, h⟩
  · rw [h]
    exact hi
  · rw [h]
    exact hi.putRow hr ha hrev hrel

theorem edges_update (s : WorkflowState) (t : TaskId) (a : RowAction) :
    (s.update t a).edges = s.edges := by
  rcases update_cases s t a with h | ⟨r, r', -, -, h⟩ <;> rw [h]
  rfl

theorem OrderInv.updateMany (hi : s.OrderInv) {pairs : List (TaskId × ℕ)} {a : ℕ → RowAction}
    (hrev : ∀ e, (a e).IsRevive = false)
    (hrel : ∀ q ∈ pairs, (a q.2).IsRelease = true → s.Open q.1) :
    (s.updateMany pairs a).OrderInv := by
  have h : (s.updateMany pairs a).OrderInv ∧ (s.updateMany pairs a).edges = s.edges := by
    refine updateMany_induction (P := fun s' => s'.OrderInv ∧ s'.edges = s.edges) s ⟨hi, rfl⟩ ?_
    rintro s' ⟨hi', he⟩ q hq
    refine ⟨hi'.update (hrev _) fun hr => ?_, (edges_update s' _ _).trans he⟩
    unfold Open
    rw [he]
    exact hrel q hq hr
  exact h.1

theorem OrderInv.recordNode (hi : s.OrderInv) {st : Status} {e : ℕ}
    (hs : st = .successful → t ∈ s.succeeded) : (s.recordNode t st e).OrderInv := by
  refine hi.renode fun n' hn' => ?_
  obtain ⟨n, hn, rfl⟩ := List.mem_map.mp hn'
  refine ⟨n, hn, ?_⟩
  split_ifs with ht
  · refine ⟨by simp, by simp, ?_⟩
    rcases n.record_outcome st e with h | h
    · refine .inr fun hout => ?_
      rw [ht]
      exact hs (Option.some.inj (h.symm.trans hout))
    · exact .inl (by rw [h])
  · exact ⟨rfl, rfl, .inl rfl⟩

theorem OrderInv.recordMany (hi : s.OrderInv) {records : List (ℕ × TaskId × Status × ℕ)}
    (hr : ∀ r ∈ records, s.RecordOk r) :
    OrderInv { s with nodes := DjangoOx.recordMany s.nodes (records.map recordFields) } := by
  obtain ⟨f, hmap, hf⟩ := exists_recordMany s.nodes (records.map recordFields)
  rw [hmap]
  refine hi.renode fun n' hn' => ?_
  obtain ⟨n, hn, rfl⟩ := List.mem_map.mp hn'
  rcases hf n with h | ⟨st, e, hmem, h⟩ <;> rw [h]
  · exact ⟨n, hn, rfl, rfl, .inl rfl⟩
  · refine ⟨n, hn, by simp, by simp, ?_⟩
    obtain ⟨⟨pk, task, st', e'⟩, hrec, heq⟩ := List.mem_map.mp hmem
    obtain ⟨rfl, rfl, rfl⟩ : pk = n.pk ∧ st' = st ∧ e' = e := by simpa [recordFields] using heq
    obtain ⟨-, htask, hsucc⟩ := hr _ hrec
    rcases n.record_outcome st' e' with h | h
    · refine .inr fun hout => ?_
      rw [htask n hn rfl]
      exact hsucc (Option.some.inj (h.symm.trans hout))
    · exact .inl (by rw [h])

theorem OrderInv.markOut (hi : s.OrderInv) {tasks : List TaskId}
    (ht : ∀ u ∈ tasks, u ∈ s.succeeded) : (s.markOut tasks).OrderInv := by
  refine hi.mark fun e _ => ?_
  split_ifs with hu
  · exact .inr ⟨ht _ hu, rfl⟩
  · exact .inl rfl

theorem OrderInv.recordNodeOutcome (hi : s.OrderInv) {st : Status} {e : ℕ}
    (hs : st = .successful → t ∈ s.succeeded) : (s.recordNodeOutcome t st e).OrderInv := by
  unfold WorkflowState.recordNodeOutcome
  have hrec := hi.recordNode (e := e) hs
  split_ifs with hn hst
  · refine hrec.markOut fun u hu => ?_
    obtain rfl := List.mem_singleton.mp hu
    exact hs hst
  · exact hrec
  · exact hi

theorem OrderInv.prune (hi : s.OrderInv) :
    OrderInv { s with rows := Function.update s.rows t none } := by
  have hst : ∀ u st, status { s with rows := Function.update s.rows t none } u = some st →
      s.status u = some st := by
    intro u st h
    by_cases he : u = t <;> simp [status, he] at h
    simpa [status] using h
  have hev : s.Evolves { s with rows := Function.update s.rows t none } :=
    .of_eq rfl rfl rfl rfl rfl rfl
  refine ⟨fun u hu => ?_, hi.declaredUsed, fun u hu => hi.won u (hst u _ hu), hi.records, hi.marks,
    hi.into, fun u ds st hd h => hi.gates u ds st hd (hst u st h),
    fun u st h => hi.started u st (hst u st h), hi.nodeKeys, hi.edgeKeys, hi.nodeKey, hi.edgeKey,
    fun y => (hi.passes y).mono hev⟩
  apply hi.rowsUsed u
  by_cases he : u = t <;> simp [he] at hu
  exact hu

/-- Nodes are deleted, and edges into rows that no step moves. -/
theorem OrderInv.drop (hi : s.OrderInv) {f : OxpullWorkflowNode → Bool}
    {g : OxpullWorkflowEdge → Bool}
    (hk : ∀ e ∈ s.edges, g e = false → ∀ st ∈ s.status e.downstream, st.Retirable) :
    OrderInv { s with nodes := s.nodes.filter f, edges := s.edges.filter g } := by
  have hnode : ∀ n ∈ s.nodes.filter f, n ∈ s.nodes := fun n h => (List.mem_filter.mp h).1
  have hedge : ∀ e ∈ s.edges.filter g, e ∈ s.edges := fun e h => (List.mem_filter.mp h).1
  have hev : s.Evolves
      { s with nodes := s.nodes.filter f, edges := s.edges.filter g } :=
    ⟨fun _ h => h, fun _ h => h, le_rfl, le_rfl, fun n h => .inl ⟨n, hnode n h, rfl, rfl⟩,
      fun e h => .inl ⟨e, hedge e h, rfl, rfl, rfl, id⟩⟩
  refine ⟨hi.rowsUsed, hi.declaredUsed, hi.won, fun n h => hi.records n (hnode n h),
    fun e h => hi.marks e (hedge e h), fun e h => hi.into e (hedge e h),
    fun t ds st hd hst hret u hu => ?_, fun t st hst hw hdisc e h => ?_,
    fun n h => hi.nodeKeys n (hnode n h), fun e h => hi.edgeKeys e (hedge e h),
    fun n h n' h' => hi.nodeKey n (hnode n h) n' (hnode n' h'),
    fun e h e' h' => hi.edgeKey e (hedge e h) e' (hedge e' h'), fun y => (hi.passes y).mono hev⟩
  · obtain ⟨e, he, hup, rfl⟩ := hi.gates t ds st hd hst hret u hu
    refine ⟨e, List.mem_filter.mpr ⟨he, ?_⟩, hup, rfl⟩
    by_contra hkeep
    exact hret (hk e he (by simpa using hkeep) st hst)
  · exact hi.started t st hst hw hdisc e (hedge e h)

theorem mem_going {chunk : List (ℕ × TaskId × Option Status)} {c : ℕ × TaskId × Option Status} :
    c ∈ s.going chunk ↔ c ∈ chunk ∧ (∀ st ∈ s.status c.2.1, st.Retirable) ∧
      ∃ n ∈ s.nodes, n.pk = c.1 ∧ n.outcome ≠ none := by
  unfold going
  rw [List.mem_filter, decide_eq_true_eq]

theorem OrderInv.goingSucceeded (hi : s.OrderInv) {chunk : List (ℕ × TaskId × Option Status)}
    (hc : ∀ c ∈ chunk, c.2.2 = some .successful → c.2.1 ∈ s.succeeded) :
    ∀ u ∈ s.goingSucceeded chunk, u ∈ s.succeeded := by
  intro u hu
  obtain ⟨c, hmem, rfl⟩ := List.mem_map.mp hu
  obtain ⟨hgo, hwon⟩ := List.mem_filter.mp hmem
  cases hst : s.status c.2.1 with
  | some st =>
    simp only [hst, decide_eq_true_eq] at hwon
    exact hi.won _ (hwon ▸ hst)
  | none =>
    simp only [hst, decide_eq_true_eq] at hwon
    exact hc c (mem_going.mp hgo).1 hwon

/-- What `_retire_chunk` deletes belongs to rows that no step moves; what it marks has succeeded. -/
theorem OrderInv.retire (hi : s.OrderInv) {w : ℕ} {chunk : List (ℕ × TaskId × Option Status)}
    (hc : ∀ c ∈ chunk, c.2.2 = some .successful → c.2.1 ∈ s.succeeded) :
    (s.retire w chunk).OrderInv := by
  have hdrop := hi.drop
    (f := fun n => ¬ (n.pk ∈ (s.going chunk).map (·.1) ∧ n.outcome ≠ none))
    (g := fun e => ¬ (e.workflow = w ∧ e.downstream ∈ (s.going chunk).map (·.2.1)))
    fun e _ hgone => by
      simp only [decide_eq_false_iff_not, not_not] at hgone
      obtain ⟨c, hmem, hdown⟩ := List.mem_map.mp hgone.2
      exact hdown ▸ (mem_going.mp hmem).2.1
  refine hdrop.mark fun e _ => ?_
  split_ifs with h
  · exact .inr ⟨hi.goingSucceeded hc _ h.2, rfl⟩
  · exact .inl rfl

theorem addedRow_status {call : Call} {inherited : ℕ} {now : ℤ} {upstream won : List TaskId} :
    (addedRow call inherited now upstream won).status = .ready ∧ upstream ⊆ won ∨
      (addedRow call inherited now upstream won).status = .waiting := by
  unfold addedRow
  by_cases hnil : upstream = []
  · left
    rw [if_pos hnil]
    exact ⟨rfl, by simp [hnil]⟩
  · rw [if_neg hnil]
    by_cases hsub : upstream ⊆ won
    · left
      simp only [if_pos hsub]
      exact ⟨rfl, hsub⟩
    · right
      simp only [if_neg hsub]
      rfl

theorem mem_addedEdges {first w : ℕ} {task : TaskId} {upstream won : List TaskId}
    {e : OxpullWorkflowEdge} (h : e ∈ addedEdges first w task upstream won) :
    first ≤ e.pk ∧ e.pk < first + upstream.length ∧ e.downstream = task ∧ e.upstream ∈ upstream ∧
      (e.satisfied = true ↔ e.upstream ∈ won) := by
  obtain ⟨i, hlt, rfl⟩ := List.mem_mapIdx.mp h
  exact ⟨Nat.le_add_right _ _, Nat.add_lt_add_left hlt _, rfl, List.getElem_mem hlt, by simp⟩

theorem addedEdges_into {first w : ℕ} {task : TaskId} {upstream won : List TaskId}
    (h : u ∈ upstream) :
    ∃ e ∈ addedEdges first w task upstream won, e.upstream = u ∧ e.downstream = task := by
  obtain ⟨i, hlt, rfl⟩ := List.mem_iff_getElem.mp h
  exact ⟨_, List.mem_mapIdx.mpr ⟨i, hlt, rfl⟩, rfl, rfl⟩

theorem addedEdges_key {first w : ℕ} {task : TaskId} {upstream won : List TaskId}
    {e e' : OxpullWorkflowEdge} (h : e ∈ addedEdges first w task upstream won)
    (h' : e' ∈ addedEdges first w task upstream won) (hpk : e.pk = e'.pk) :
    e.upstream = e'.upstream := by
  obtain ⟨i, hi, rfl⟩ := List.mem_mapIdx.mp h
  obtain ⟨j, hj, rfl⟩ := List.mem_mapIdx.mp h'
  obtain rfl : i = j := Nat.add_left_cancel hpk
  rfl

/-- `add` commits a node, its edges and its row together. -/
theorem OrderInv.insertNode (hi : s.OrderInv) {w : ℕ} {f : OxpullWorkflow} {name : String}
    {task : TaskId} {row : OxTask} {upstream won : List TaskId} (hnew : task ∉ s.used)
    (hwon : ∀ u ∈ won, u ∈ s.succeeded)
    (hrow : row.status = .ready ∧ upstream ⊆ won ∨ row.status = .waiting) :
    (s.insertNode w f name task row upstream won).OrderInv := by
  have hundeclared : s.declared task = none := by
    by_contra h
    exact hnew (hi.declaredUsed task h)
  have hsucc : ∀ u, u ∈ (s.insertNode w f name task row upstream won).succeeded ↔
      u ∈ s.succeeded := by
    intro u
    refine (mem_succeeded_putRow s task u ⟨row, [], [], [], []⟩).trans ⟨?_, .inl⟩
    rintro (h | ⟨-, h⟩)
    · exact h
    · rcases hrow with ⟨hr, -⟩ | hr <;> rw [hr] at h <;> cases h
  have hstatus : ∀ u, (s.insertNode w f name task row upstream won).status u =
      if u = task then some row.status else s.status u := fun u => status_putRow s task u _
  have hdeclared : ∀ u, u ≠ task →
      (s.insertNode w f name task row upstream won).declared u = s.declared u := fun u hu =>
    Function.update_of_ne hu _ _
  have hedges : ∀ e, e ∈ (s.insertNode w f name task row upstream won).edges ↔
      e ∈ s.edges ∨ e ∈ addedEdges s.nextEdge w task upstream won := fun e => List.mem_append
  have hnodes : ∀ n, n ∈ (s.insertNode w f name task row upstream won).nodes ↔
      n ∈ s.nodes ∨ n = ⟨s.nextNode, w, name, task, none, none, false⟩ := fun n => by
    exact List.mem_append.trans (or_congr_right List.mem_singleton)
  have holdEdge : ∀ e ∈ s.edges, e.downstream ≠ task := by
    rintro e he rfl
    exact hi.into e he hundeclared
  have hev : s.Evolves (s.insertNode w f name task row upstream won) := by
    refine ⟨fun u hu => (hsucc u).mpr hu, fun u hu => ?_, Nat.le_succ _, Nat.le_add_right _ _,
      fun n hn => ?_, fun e he => ?_⟩
    · rw [hdeclared u fun h => hu (h ▸ hundeclared)]
      exact hu
    · rcases (hnodes n).mp hn with h | rfl
      · exact .inl ⟨n, h, rfl, rfl⟩
      · exact .inr le_rfl
    · rcases (hedges e).mp he with h | h
      · exact .inl ⟨e, h, rfl, rfl, rfl, id⟩
      · obtain ⟨hge, -, hdown, -⟩ := mem_addedEdges h
        exact .inr ⟨hge, hdown ▸ hundeclared⟩
  refine ⟨fun u hu => ?_, fun u hu => ?_, fun u hu => ?_, fun n hn h => ?_, fun e he h => ?_,
    fun e he => ?_, fun u ds st hd hst hret v hv => ?_, fun u st hst hw hdisc e he hdown => ?_,
    fun n hn => ?_, fun e he => ?_, fun n hn n' hn' hpk => ?_, fun e he e' he' hpk => ?_,
    fun y => (hi.passes y).mono hev⟩
  · by_cases hu' : u = task
    · exact hu' ▸ List.mem_cons_self
    · refine List.mem_cons_of_mem _ (hi.rowsUsed u ?_)
      have hsame : (s.insertNode w f name task row upstream won).rows u = s.rows u :=
        (rows_putRow s task u _).trans (if_neg hu')
      exact hsame ▸ hu
  · by_cases hu' : u = task
    · exact hu' ▸ List.mem_cons_self
    · rw [hdeclared u hu'] at hu
      exact List.mem_cons_of_mem _ (hi.declaredUsed u hu)
  · rw [hstatus] at hu
    split_ifs at hu
    · rcases hrow with ⟨hr, -⟩ | hr <;> rw [hr] at hu <;> cases hu
    · exact (hsucc u).mpr (hi.won u hu)
  · rcases (hnodes n).mp hn with hold | rfl
    · exact (hsucc _).mpr (hi.records n hold h)
    · cases h
  · rw [hsucc]
    rcases (hedges e).mp he with hold | hadd
    · exact hi.marks e hold h
    · exact hwon _ ((mem_addedEdges hadd).2.2.2.2.mp h)
  · rcases (hedges e).mp he with hold | hadd
    · rw [hdeclared _ (holdEdge e hold)]
      exact hi.into e hold
    · rw [(mem_addedEdges hadd).2.2.1]
      simp [WorkflowState.insertNode]
  · by_cases hu' : u = task
    · subst hu'
      obtain rfl : upstream = ds := by simpa [WorkflowState.insertNode] using hd
      have hinto : ∃ e ∈ addedEdges s.nextEdge w u upstream won,
          e.upstream = v ∧ e.downstream = u := addedEdges_into hv
      obtain ⟨e, he, hup, hdown⟩ := hinto
      exact ⟨e, (hedges e).mpr (.inr he), hup, hdown⟩
    · rw [hdeclared u hu'] at hd
      rw [hstatus, if_neg hu'] at hst
      obtain ⟨e, he, hup, hdown⟩ := hi.gates u ds st hd hst hret v hv
      exact ⟨e, (hedges e).mpr (.inl he), hup, hdown⟩
  · rw [hstatus] at hst
    split_ifs at hst with hu'
    · obtain rfl := Option.some.inj hst
      rcases hrow with ⟨-, hsub⟩ | hr
      · rcases (hedges e).mp he with hold | hadd
        · exact absurd (hdown.trans hu') (holdEdge e hold)
        · obtain ⟨-, -, -, hup, hsat⟩ := mem_addedEdges hadd
          exact hsat.mpr (hsub hup)
      · exact absurd hr hw
    · rcases (hedges e).mp he with hold | hadd
      · exact hi.started u st hst hw hdisc e hold hdown
      · exact absurd (hdown.symm.trans (mem_addedEdges hadd).2.2.1) hu'
  · change n.pk < s.nextNode + 1
    rcases (hnodes n).mp hn with hold | rfl
    · exact Nat.lt_succ_of_lt (hi.nodeKeys n hold)
    · exact Nat.lt_succ_self _
  · change e.pk < s.nextEdge + upstream.length
    rcases (hedges e).mp he with hold | hadd
    · exact Nat.lt_add_right _ (hi.edgeKeys e hold)
    · exact (mem_addedEdges hadd).2.1
  · rcases (hnodes n).mp hn with hold | rfl <;> rcases (hnodes n').mp hn' with hold' | rfl
    · exact hi.nodeKey n hold n' hold' hpk
    · have := hi.nodeKeys n hold
      simp only at hpk
      omega
    · have := hi.nodeKeys n' hold'
      simp only at hpk
      omega
    · rfl
  · rcases (hedges e).mp he with hold | hadd <;> rcases (hedges e').mp he' with hold' | hadd'
    · exact hi.edgeKey e hold e' hold' hpk
    · have := hi.edgeKeys e hold
      have := (mem_addedEdges hadd').1
      omega
    · have := hi.edgeKeys e' hold'
      have := (mem_addedEdges hadd).1
      omega
    · exact addedEdges_key hadd hadd' hpk

end WorkflowState

end DjangoOx
