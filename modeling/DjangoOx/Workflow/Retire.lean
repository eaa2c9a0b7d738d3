import DjangoOx.Workflow.Records

/-! Retiring a COMPLETE workflow: its nodes and edges go chunk by chunk, and what gates a node that
can still move stays. -/
namespace DjangoOx

open Machine

/-- The record repair of the backstop. -/
def WorkflowAction.WritesRecords : WorkflowAction → Bool
  | .writeRecords _ _ => true
  | _ => false

namespace WorkflowState

variable {s s' s'' : WorkflowState} {x w : ℕ} {t u : TaskId} {p : WorkflowPass}

/-- COMPLETE, with `metadata_retired_at` set. -/
def Retired (s : WorkflowState) (w : ℕ) : Prop :=
  ∃ f, s.workflows w = some f ∧ f.status = .complete ∧ f.retired = true

/-- Every edge out of the task is marked. -/
def Marked (s : WorkflowState) (t : TaskId) : Prop :=
  ∀ e ∈ s.edges, e.upstream = t → e.satisfied = true

/-- The upstream counts as proven for the downstream: by the mark, by the row, or by the record of a
row that is gone. -/
def Proven (s : WorkflowState) (u t : TaskId) : Prop :=
  (∃ e ∈ s.edges, e.upstream = u ∧ e.downstream = t ∧ e.satisfied = true) ∨
    s.status u = some .successful ∨ s.status u = none ∧ s.recorded u = some .successful

/-- What a chunk was read with still stands: a success is a success, and one that came later has
marked the edges out of its node. -/
def ChunkOk (s : WorkflowState) (w : ℕ) (c : ℕ × TaskId × Option Status) : Prop :=
  c.1 < s.nextNode ∧ ∀ n ∈ s.nodes, n.pk = c.1 → n.task = c.2.1 ∧ n.workflow = w ∧
    (c.2.2 = some .successful → n.outcome = some .successful) ∧
    (n.outcome = some .successful → c.2.2 = some .successful ∨ s.Marked n.task)

/-- The task was given out, and its node is the workflow's. -/
def Home (s : WorkflowState) (w : ℕ) (u : TaskId) : Prop :=
  u ∈ s.used ∧ ∀ n ∈ s.nodes, n.task = u → n.workflow = w

def RetireOk (s : WorkflowState) : WorkflowPass → Prop
  | .adding w _ upstream _ _ => ∀ u ∈ upstream, s.Home w u
  | .retiring w _ => s.Retired w
  | .chunked w chunk => s.Retired w ∧ ∀ c ∈ chunk, s.ChunkOk w c
  | _ => True

structure RetireInv (s : WorkflowState) : Prop where
  upUsed : ∀ e ∈ s.edges, e.upstream ∈ s.used
  home : ∀ e ∈ s.edges, ∀ n ∈ s.nodes, n.task = e.upstream → n.workflow = e.workflow
  passes : ∀ x, s.RetireOk (s.passes x)

/-- What a step leaves to a retirement under way: only nodes and edges of retired workflows go. -/
structure Retains (s s' : WorkflowState) : Prop where
  used : ∀ t ∈ s.used, t ∈ s'.used
  nextNode : s.nextNode ≤ s'.nextNode
  retired : ∀ w, s.Retired w → s'.Retired w
  nodes : ∀ n' ∈ s'.nodes, (∃ n ∈ s.nodes, n'.pk = n.pk ∧ n'.task = n.task ∧
    n'.workflow = n.workflow ∧
    (n.outcome = some .successful → n'.outcome = some .successful) ∧
    (n'.outcome = some .successful →
      n.outcome = some .successful ∨ s'.Marked n.task ∨ ¬ s.Retired n.workflow)) ∨
    s.nextNode ≤ n'.pk ∧ n'.task ∉ s.used
  edges : ∀ e' ∈ s'.edges, (∃ e ∈ s.edges, e'.upstream = e.upstream ∧
    e'.workflow = e.workflow ∧ e'.downstream = e.downstream ∧
    (e.satisfied = true → e'.satisfied = true)) ∨
    ¬ s.Retired e'.workflow ∧ s.Home e'.workflow e'.upstream ∧ e'.downstream ∉ s.used
  keepsNodes : ∀ n ∈ s.nodes, ¬ s.Retired n.workflow →
    ∃ n' ∈ s'.nodes, n'.task = n.task ∧ (n.outcome ≠ none → n'.outcome ≠ none)
  keepsEdges : ∀ e ∈ s.edges, ¬ s.Retired e.workflow → ∃ e' ∈ s'.edges,
    e'.workflow = e.workflow ∧ e'.upstream = e.upstream ∧ e'.downstream = e.downstream

theorem Home.mono (h : s.Home w u) (hr : s.Retains s') : s'.Home w u := by
  obtain ⟨hused, hhome⟩ := h
  refine ⟨hr.used u hused, fun n' hn' htask => ?_⟩
  rcases hr.nodes n' hn' with ⟨n, hn, -, hsame, hwf, -⟩ | ⟨-, hnew⟩
  · rw [hwf]
    exact hhome n hn (hsame.symm.trans htask)
  · exact absurd (htask ▸ hused) hnew

theorem Marked.mono (h : s.Marked t) {n : OxpullWorkflowNode} (hn : n ∈ s.nodes)
    (ht : n.task = t) (hw : s.Retired n.workflow) (hr : s.Retains s') : s'.Marked t := by
  intro e' he' hup
  rcases hr.edges e' he' with ⟨e, he, hsame, -, -, hsat⟩ | ⟨hopen, hhome, -⟩
  · exact hsat (h e he (hsame.symm.trans hup))
  · exact absurd (hhome.2 n hn (ht.trans hup.symm) ▸ hw) hopen

theorem ChunkOk.mono {c : ℕ × TaskId × Option Status} (h : s.ChunkOk w c) (hw : s.Retired w)
    (hr : s.Retains s') : s'.ChunkOk w c := by
  obtain ⟨hlt, hnode⟩ := h
  refine ⟨by have := hr.nextNode; omega, fun n' hn' hpk => ?_⟩
  rcases hr.nodes n' hn' with ⟨n, hn, hkey, htask, hhome, hkeep, hnew⟩ | ⟨hnew, -⟩
  · obtain ⟨htask', hw', hread, hwon⟩ := hnode n hn (hkey.symm.trans hpk)
    refine ⟨htask.trans htask', hhome.trans hw', fun h => hkeep (hread h), fun h => ?_⟩
    rcases hnew h with hold | hmark | hlive
    · rcases hwon hold with hc | hm
      · exact .inl hc
      · right
        rw [htask]
        exact hm.mono hn rfl (hw' ▸ hw) hr
    · right
      rwa [htask]
    · exact absurd (hw' ▸ hw) hlive
  · omega

theorem RetireOk.mono (h : s.RetireOk p) (hr : s.Retains s') : s'.RetireOk p := by
  cases p with
  | adding w name upstream unread succeeded => exact fun u hu => (h u hu).mono hr
  | retiring w after => exact hr.retired w h
  | chunked w chunk => exact ⟨hr.retired w h.1, fun c hc => (h.2 c hc).mono h.1 hr⟩
  | _ => trivial

theorem RetireInv.retains (hi : s.RetireInv) (hr : s.Retains s')
    (hp : ∀ x, s'.passes x = s.passes x ∨ s'.RetireOk (s'.passes x)) : s'.RetireInv where
  upUsed e' he' := by
    rcases hr.edges e' he' with ⟨e, he, hup, -⟩ | ⟨-, hhome, -⟩
    · rw [hup]
      exact hr.used _ (hi.upUsed e he)
    · exact hr.used _ hhome.1
  home e' he' n' hn' htask := by
    rcases hr.edges e' he' with ⟨e, he, hup, hwf, -⟩ | ⟨-, hhome, -⟩ <;>
      rcases hr.nodes n' hn' with ⟨n, hn, -, hsame, hnw, -⟩ | ⟨-, hnew⟩
    · rw [hnw, hwf]
      exact hi.home e he n hn (hsame.symm.trans (htask.trans hup))
    · exact absurd (htask ▸ hup ▸ hi.upUsed e he) hnew
    · rw [hnw]
      exact hhome.2 n hn (hsame.symm.trans htask)
    · exact absurd (htask ▸ hhome.1) hnew
  passes x := by
    rcases hp x with h | h
    · rw [h]
      exact (hi.passes x).mono hr
    · exact h

/-- Nothing but rows, locks and passes is written, and no workflow leaves COMPLETE. -/
theorem Retains.of_eq (hn : s'.nodes = s.nodes) (he : s'.edges = s.edges) (hu : s'.used = s.used)
    (hk : s'.nextNode = s.nextNode) (hw : ∀ w, s.Retired w → s'.Retired w) : s.Retains s' where
  used := by simp [hu]
  nextNode := hk ▸ le_rfl
  retired := hw
  nodes n' h := .inl ⟨n', hn ▸ h, rfl, rfl, rfl, id, .inl⟩
  edges e' h := .inl ⟨e', he ▸ h, rfl, rfl, rfl, id⟩
  keepsNodes n h _ := ⟨n, hn ▸ h, rfl, id⟩
  keepsEdges e h _ := ⟨e, he ▸ h, rfl, rfl, rfl⟩

theorem Retains.of_eq_right (hr : s.Retains s') (hn : s''.nodes = s'.nodes)
    (he : s''.edges = s'.edges) (hu : s''.used = s'.used) (hk : s''.nextNode = s'.nextNode)
    (hw : s''.workflows = s'.workflows) : s.Retains s'' where
  used := hu ▸ hr.used
  nextNode := hk ▸ hr.nextNode
  retired w h := by
    unfold Retired
    rw [hw]
    exact hr.retired w h
  nodes n' h := by
    rcases hr.nodes n' (hn ▸ h) with ⟨n, hn', hpk, htask, hwf, hkeep, hnew⟩ | h
    · refine .inl ⟨n, hn', hpk, htask, hwf, hkeep, fun hout => ?_⟩
      unfold Marked
      rw [he]
      exact hnew hout
    · exact .inr h
  edges e' h := hr.edges e' (he ▸ h)
  keepsNodes := hn ▸ hr.keepsNodes
  keepsEdges := he ▸ hr.keepsEdges

theorem Retains.of_putRow {r : RowState} (hr : (s.putRow t r).Retains s') : s.Retains s' :=
  ⟨hr.used, hr.nextNode, hr.retired, hr.nodes, hr.edges, hr.keepsNodes, hr.keepsEdges⟩

/-- Records are written and edges marked. A new success marks the edges out of its node, or its
workflow is not retired. -/
theorem Retains.records {f : OxpullWorkflowNode → OxpullWorkflowNode}
    {g : OxpullWorkflowEdge → OxpullWorkflowEdge}
    (hf : ∀ n ∈ s.nodes, (f n).pk = n.pk ∧ (f n).task = n.task ∧ (f n).workflow = n.workflow ∧
      (n.outcome ≠ none → (f n).outcome ≠ none) ∧
      (n.outcome = some .successful → (f n).outcome = some .successful) ∧
      ((f n).outcome = some .successful → n.outcome = some .successful ∨
        (∀ e ∈ s.edges, e.upstream = n.task → (g e).satisfied = true) ∨ ¬ s.Retired n.workflow))
    (hg : ∀ e, (g e).upstream = e.upstream ∧ (g e).workflow = e.workflow ∧
      (g e).downstream = e.downstream ∧ (e.satisfied = true → (g e).satisfied = true))
    (hn : s'.nodes = s.nodes.map f) (he : s'.edges = s.edges.map g) (hu : s'.used = s.used)
    (hk : s'.nextNode = s.nextNode) (hw : s'.workflows = s.workflows) : s.Retains s' where
  used := by simp [hu]
  nextNode := hk ▸ le_rfl
  retired w h := by
    unfold Retired
    rwa [hw]
  nodes n' h := by
    rw [hn] at h
    obtain ⟨n, hmem, rfl⟩ := List.mem_map.mp h
    obtain ⟨hpk, htask, hwf, -, hkeep, hnew⟩ := hf n hmem
    refine .inl ⟨n, hmem, hpk, htask, hwf, hkeep, fun hout => ?_⟩
    rcases hnew hout with h | h | h
    · exact .inl h
    · refine .inr (.inl fun e' he' hup => ?_)
      rw [he] at he'
      obtain ⟨e, hmem', rfl⟩ := List.mem_map.mp he'
      exact h e hmem' ((hg e).1.symm.trans hup)
    · exact .inr (.inr h)
  edges e' h := by
    rw [he] at h
    obtain ⟨e, hmem, rfl⟩ := List.mem_map.mp h
    exact .inl ⟨e, hmem, hg e⟩
  keepsNodes n h _ := by
    refine ⟨f n, ?_, (hf n h).2.1, (hf n h).2.2.2.1⟩
    rw [hn]
    exact List.mem_map_of_mem h
  keepsEdges e h _ := by
    refine ⟨g e, ?_, (hg e).2.1, (hg e).1, (hg e).2.2.1⟩
    rw [he]
    exact List.mem_map_of_mem h

/-- Edges are marked. -/
theorem Retains.marks {g : OxpullWorkflowEdge → OxpullWorkflowEdge}
    (hg : ∀ e, (g e).upstream = e.upstream ∧ (g e).workflow = e.workflow ∧
      (g e).downstream = e.downstream ∧ (e.satisfied = true → (g e).satisfied = true))
    (hn : s'.nodes = s.nodes) (he : s'.edges = s.edges.map g) (hu : s'.used = s.used)
    (hk : s'.nextNode = s.nextNode) (hw : s'.workflows = s.workflows) : s.Retains s' :=
  .records (f := id) (fun _ _ => ⟨rfl, rfl, rfl, id, id, .inl⟩) hg (by simp [hn]) he hu hk hw

/-- Nodes and edges of a retired workflow are deleted, and edges marked. -/
theorem Retains.deletes {f : OxpullWorkflowNode → Bool} {k : OxpullWorkflowEdge → Bool}
    {g : OxpullWorkflowEdge → OxpullWorkflowEdge}
    (hf : ∀ n ∈ s.nodes, f n = false → s.Retired n.workflow)
    (hk' : ∀ e ∈ s.edges, k e = false → s.Retired e.workflow)
    (hg : ∀ e, (g e).upstream = e.upstream ∧ (g e).workflow = e.workflow ∧
      (g e).downstream = e.downstream ∧ (e.satisfied = true → (g e).satisfied = true))
    (hn : s'.nodes = s.nodes.filter f) (he : s'.edges = (s.edges.filter k).map g)
    (hu : s'.used = s.used) (hk : s'.nextNode = s.nextNode) (hw : s'.workflows = s.workflows) :
    s.Retains s' where
  used := by simp [hu]
  nextNode := hk ▸ le_rfl
  retired w h := by
    unfold Retired
    rwa [hw]
  nodes n' h := by
    rw [hn] at h
    exact .inl ⟨n', (List.mem_filter.mp h).1, rfl, rfl, rfl, id, .inl⟩
  edges e' h := by
    rw [he] at h
    obtain ⟨e, hmem, rfl⟩ := List.mem_map.mp h
    exact .inl ⟨e, (List.mem_filter.mp hmem).1, hg e⟩
  keepsNodes n h hlive := by
    refine ⟨n, ?_, rfl, id⟩
    rw [hn]
    exact List.mem_filter.mpr ⟨h, by_contra fun hne => hlive (hf n h (by simpa using hne))⟩
  keepsEdges e h hlive := by
    refine ⟨g e, ?_, (hg e).2.1, (hg e).1, (hg e).2.2.1⟩
    rw [he]
    refine List.mem_map_of_mem (List.mem_filter.mpr ⟨h, ?_⟩)
    exact by_contra fun hne => hlive (hk' e h (by simpa using hne))

/-- Records are written that are no successes. -/
theorem Retains.renode (hr : s.Retains s') {f : OxpullWorkflowNode → OxpullWorkflowNode}
    (hf : ∀ n ∈ s'.nodes, (f n).pk = n.pk ∧ (f n).task = n.task ∧ (f n).workflow = n.workflow ∧
      (n.outcome ≠ none → (f n).outcome ≠ none) ∧
      ((f n).outcome = some .successful ↔ n.outcome = some .successful)) :
    s.Retains { s' with nodes := s'.nodes.map f } where
  used := hr.used
  nextNode := hr.nextNode
  retired := hr.retired
  nodes n' h := by
    obtain ⟨m, hm, rfl⟩ := List.mem_map.mp h
    obtain ⟨hpk, htask, hwf, -, hout⟩ := hf m hm
    rw [hpk, htask, hwf, hout]
    exact hr.nodes m hm
  edges := hr.edges
  keepsNodes n hn hlive := by
    obtain ⟨m, hm, htask, hout⟩ := hr.keepsNodes n hn hlive
    obtain ⟨-, htask', -, hout', -⟩ := hf m hm
    exact ⟨f m, List.mem_map_of_mem hm, htask'.trans htask, fun h => hout' (hout h)⟩
  keepsEdges := hr.keepsEdges

theorem Retains.recordDiscarded (hr : s.Retains s') (hi : s'.RecordInv)
    (pairs : List (TaskId × ℕ)) : s.Retains (s'.recordDiscarded pairs) := by
  have h : (s'.recordDiscarded pairs).RecordInv ∧ (s'.recordDiscarded pairs).rows = s'.rows ∧
      s.Retains (s'.recordDiscarded pairs) := by
    refine recordDiscarded_induction
      (P := fun a => a.RecordInv ∧ a.rows = s'.rows ∧ s.Retains a) s' ⟨hi, rfl, hr⟩ ?_
    rintro a ⟨hi, hrows, hr⟩ t e hrow
    have hfit : a.Fits t .discarded e := by
      apply hi.fits_row
      unfold row
      rw [hrows]
      exact hrow
    refine ⟨hi.recordNode hfit, hrows, hr.renode fun n hn => ?_⟩
    split_ifs with ht
    · refine ⟨by simp, by simp, by simp, n.record_outcome_ne _ _, fun h => ?_, fun h => ?_⟩
      · rcases n.record_outcome .discarded e with hrec | hrec <;> rw [hrec] at h
        · cases h
        · exact h
      · rw [hi.record_keeps hn (ht ▸ hfit) h]
        exact h
    · simp
  exact h.2.2

/-- An outcome and the records it goes with. -/
theorem Retains.recordNodeOutcome (hi : s.RecordInv) {st : Status} {e : ℕ}
    (hr : s.row t = some (st, e)) : s.Retains (s.recordNodeOutcome t st e) := by
  have hfit := hi.fits_row hr
  unfold WorkflowState.recordNodeOutcome
  split_ifs with hnode hst
  · refine .records (f := fun n => if n.task = t then n.record st e else n)
      (g := fun e => if e.upstream ∈ [t] then { e with satisfied := true } else e)
      (fun n hn => ?_) (fun e => ?_) rfl rfl rfl rfl rfl
    · split_ifs with ht
      · refine ⟨by simp, by simp, by simp, n.record_outcome_ne _ _, fun h => ?_,
          fun _ => .inr (.inl fun e _ hup => ?_)⟩
        · rw [hi.record_keeps hn (ht ▸ hfit) h]
          exact h
        · rw [if_pos (by simp [hup, ht])]
      · exact ⟨rfl, rfl, rfl, id, id, .inl⟩
    · split_ifs <;> simp
  · refine Retains.renode (.of_eq rfl rfl rfl rfl fun _ h => h) fun n hn => ?_
    split_ifs with ht
    · refine ⟨by simp, by simp, by simp, n.record_outcome_ne _ _, fun h => ?_, fun h => ?_⟩
      · rcases n.record_outcome st e with hrec | hrec <;> rw [hrec] at h
        · exact absurd (Option.some.inj h) hst
        · exact h
      · rw [hi.record_keeps hn (ht ▸ hfit) h]
        exact h
    · simp
  · exact .of_eq rfl rfl rfl rfl fun _ h => h

/-- A repair marks the edges out of every node it records as a success. -/
theorem Retains.commitRepairs (hi : s.RecordInv) {records : List (ℕ × TaskId × Status × ℕ)}
    (hr : ∀ r ∈ records, s.Fits r.2.1 r.2.2.1 r.2.2.2 ∧ ∀ n ∈ s.nodes, n.pk = r.1 → n.task = r.2.1)
    (passes : ℕ → WorkflowPass) :
    s.Retains (markOut { s with
      passes := passes
      nodes := recordMany s.nodes (records.map recordFields) }
        ((records.filter fun r => r.2.2.1 = .successful).map (·.2.1))) := by
  obtain ⟨f, hmap, hf⟩ := exists_recordMany s.nodes (records.map recordFields)
  rw [hmap]
  refine .records (f := f) (fun n hn => ?_) (fun e => ?_) rfl rfl rfl rfl rfl
  · rcases hf n with h | ⟨st, e, hmem, h⟩ <;> rw [h]
    · exact ⟨rfl, rfl, rfl, id, id, .inl⟩
    · obtain ⟨r, hr', heq⟩ := List.mem_map.mp hmem
      obtain ⟨hpk, rfl, rfl⟩ : r.1 = n.pk ∧ r.2.2.1 = st ∧ r.2.2.2 = e := by
        simpa [recordFields, Prod.ext_iff] using heq
      obtain ⟨hfit, htask⟩ := hr r hr'
      have htask : n.task = r.2.1 := htask n hn hpk.symm
      refine ⟨by simp, by simp, by simp, n.record_outcome_ne _ _, fun h => ?_, fun h => ?_⟩
      · rw [hi.record_keeps hn (htask ▸ hfit) h]
        exact h
      · rcases n.record_outcome r.2.2.1 r.2.2.2 with hrec | hrec <;> rw [hrec] at h
        · refine .inr (.inl fun e _ hup => ?_)
          rw [if_pos]
          refine List.mem_map.mpr ⟨r, List.mem_filter.mpr ⟨hr', ?_⟩, (hup.trans htask).symm⟩
          simpa using h
        · exact .inl h
  · split_ifs <;> simp

/-- A repair that records no node of a retired workflow. -/
theorem Retains.writeRecords (hi : s.RecordInv) {records : List (ℕ × TaskId × Status × ℕ)}
    (hr : ∀ r ∈ records, s.Fits r.2.1 r.2.2.1 r.2.2.2 ∧ ∀ n ∈ s.nodes, n.pk = r.1 →
      n.task = r.2.1 ∧ ¬ s.Retired n.workflow)
    (passes : ℕ → WorkflowPass) :
    s.Retains { s with
      passes := passes
      nodes := recordMany s.nodes (records.map recordFields) } := by
  obtain ⟨f, hmap, hf⟩ := exists_recordMany s.nodes (records.map recordFields)
  rw [hmap]
  refine .records (f := f) (g := id) (fun n hn => ?_) (fun e => ⟨rfl, rfl, rfl, id⟩) rfl
    (by simp) rfl rfl rfl
  rcases hf n with h | ⟨st, e, hmem, h⟩ <;> rw [h]
  · exact ⟨rfl, rfl, rfl, id, id, .inl⟩
  · obtain ⟨r, hr', heq⟩ := List.mem_map.mp hmem
    obtain ⟨hpk, rfl, rfl⟩ : r.1 = n.pk ∧ r.2.2.1 = st ∧ r.2.2.2 = e := by
      simpa [recordFields, Prod.ext_iff] using heq
    obtain ⟨hfit, hnode⟩ := hr r hr'
    obtain ⟨htask, hlive⟩ := hnode n hn hpk.symm
    refine ⟨by simp, by simp, by simp, n.record_outcome_ne _ _, fun h => ?_,
      fun _ => .inr (.inr hlive)⟩
    rw [hi.record_keeps hn (htask ▸ hfit) h]
    exact h

/-- `add` commits to a workflow that is OPEN, upstreams of its own. -/
theorem Retains.insertNode {f : OxpullWorkflow} {name : String} {task : TaskId} {new : OxTask}
    {upstream won : List TaskId} (hopen : ¬ s.Retired w) (hnew : task ∉ s.used)
    (hup : ∀ u ∈ upstream, s.Home w u) :
    s.Retains (s.insertNode w f name task new upstream won) where
  used t ht := List.mem_cons_of_mem _ ht
  nextNode := Nat.le_succ _
  retired w' h := by
    have hne : w' ≠ w := fun heq => hopen (heq ▸ h)
    obtain ⟨f', hf', hst⟩ := h
    refine ⟨f', ?_, hst⟩
    rw [← hf']
    exact Function.update_of_ne hne _ _
  nodes n' h := by
    rcases List.mem_append.mp h with h | h
    · exact .inl ⟨n', h, rfl, rfl, rfl, id, .inl⟩
    · obtain rfl := List.mem_singleton.mp h
      exact .inr ⟨le_rfl, hnew⟩
  edges e' h := by
    rcases List.mem_append.mp h with h | h
    · exact .inl ⟨e', h, rfl, rfl, rfl, id⟩
    · have hmem : e'.upstream ∈ upstream := (mem_addedEdges h).2.2.2.1
      have hwf : e'.workflow = w := by
        obtain ⟨i, hi, rfl⟩ := List.mem_mapIdx.mp h
        rfl
      have hdown : e'.downstream = task := (mem_addedEdges h).2.2.1
      rw [hwf, hdown]
      exact .inr ⟨hopen, hup _ hmem, hnew⟩
  keepsNodes n h _ := ⟨n, List.mem_append_left _ h, rfl, id⟩
  keepsEdges e h _ := ⟨e, List.mem_append_left _ h, rfl, rfl, rfl⟩

theorem Retains.retire {chunk : List (ℕ × TaskId × Option Status)} (hw : s.Retired w)
    (hok : ∀ c ∈ chunk, s.ChunkOk w c) : s.Retains (s.retire w chunk) := by
  refine .deletes (fun n hn hgone => ?_) (fun e _ hgone => ?_) (fun e => ?_) rfl rfl rfl rfl rfl
  · simp only [decide_eq_false_iff_not, not_not] at hgone
    obtain ⟨c, hc, hpk⟩ := List.mem_map.mp hgone.1
    rw [((hok c (mem_going.mp hc).1).2 n hn hpk.symm).2.1]
    exact hw
  · simp only [decide_eq_false_iff_not, not_not] at hgone
    rw [hgone.1]
    exact hw
  · split_ifs <;> simp

theorem mem_of_mapM {α β : Type} {f : α → Option β} {l : List α} {l' : List β}
    (h : l.mapM f = some l') : ∀ b ∈ l', ∃ a ∈ l, f a = some b := by
  induction l generalizing l' with
  | nil =>
    obtain rfl : l' = [] := by simpa using h.symm
    simp
  | cons a l ih =>
    rw [List.mapM_cons] at h
    obtain ⟨b, hb, h⟩ := Option.bind_eq_some_iff.mp h
    obtain ⟨bs, hbs, h⟩ := Option.bind_eq_some_iff.mp h
    obtain rfl : b :: bs = l' := Option.some.inj h
    intro c hc
    rcases List.mem_cons.mp hc with rfl | hc
    · exact ⟨a, List.mem_cons_self, hb⟩
    · obtain ⟨a', ha', hf⟩ := ih hbs c hc
      exact ⟨a', List.mem_cons_of_mem _ ha', hf⟩

/-- The names resolve to nodes of the workflow. -/
theorem mem_resolveDependencies {wanted : List String} {us : List TaskId}
    (h : s.resolveDependencies w wanted = some us) :
    ∀ u ∈ us, ∃ n ∈ s.nodes, n.workflow = w ∧ n.task = u := by
  intro u hu
  obtain ⟨name, -, hname⟩ := mem_of_mapM h u hu
  obtain ⟨n, hn, rfl⟩ := Option.map_eq_some_iff.mp hname
  have hkey := List.find?_some hn
  rw [decide_eq_true_eq] at hkey
  exact ⟨n, List.mem_of_find?_eq_some hn, hkey.1, rfl⟩

/-- What a step leaves, and what the pass of its party has read. -/
theorem Retains.pass (hr : s.Retains s') (hp : s'.passes = Function.update s.passes x p)
    (hok : s'.RetireOk p) :
    s.Retains s' ∧ ∀ y, s'.passes y = s.passes y ∨ s'.RetireOk (s'.passes y) := by
  refine ⟨hr, fun y => ?_⟩
  rw [hp]
  by_cases h : y = x
  · right
    rw [h, Function.update_self]
    exact hok
  · exact .inl (Function.update_of_ne h _ _)

/-- The record repair of the backstop, which visits OPEN and SEALED workflows, writes to no retired
one. -/
def LeavesRetired (s : WorkflowState) : WorkflowAction → Prop
  | .writeRecords x locked => ∀ r ∈ (s.passes x).records, r.1 ∈ locked →
      ∀ n ∈ s.nodes, n.pk = r.1 → ¬ s.Retired n.workflow
  | _ => True

theorem leavesRetired_of_not {a : WorkflowAction} (h : a.WritesRecords = false) :
    s.LeavesRetired a := by
  cases a <;> trivial

theorem retire_of_start (h : s.Start) : s.RetireInv := by
  obtain ⟨-, -, -, -, -, he, -, -, hp, -⟩ := h
  refine ⟨by simp [he], by simp [he], fun x => ?_⟩
  rw [hp x]
  trivial

/-- The workflow row moves on, and not out of COMPLETE. -/
theorem Retired.update {g f : OxpullWorkflow} (hg : s.workflows w = some g)
    (hf : g.status = .complete → f.status = .complete ∧ (g.retired = true → f.retired = true)) :
    ∀ w', s.Retired w' →
      Retired { s with workflows := Function.update s.workflows w (some f) } w' := by
  rintro w' ⟨f', hf', hst, hret⟩
  by_cases h : w' = w
  · subst h
    obtain rfl : g = f' := Option.some.inj (hg.symm.trans hf')
    obtain ⟨hst', hret'⟩ := hf hst
    exact ⟨f, Function.update_self .., hst', hret' hret⟩
  · exact ⟨f', (Function.update_of_ne h _ _).trans hf', hst, hret⟩

theorem step_retains {a : WorkflowAction} (ho : s.OrderInv) (hr : s.RecordInv) (hi : s.RetireInv)
    (hc : s.LeavesRetired a) (h : step s a = some s') :
    s.Retains s' ∧ ∀ y, s'.passes y = s.passes y ∨ s'.RetireOk (s'.passes y) := by
  cases a with
  | create w =>
    obtain ⟨hnone, h⟩ := Option.ite_none_right_eq_some.mp h
    obtain rfl := Option.some.inj h
    refine ⟨.of_eq rfl rfl rfl rfl ?_, fun _ => .inl rfl⟩
    rintro w' ⟨f', hf', hst⟩
    have hne : w' ≠ w := by
      rintro rfl
      simp [hnone] at hf'
    exact ⟨f', (Function.update_of_ne hne _ _).trans hf', hst⟩
  | sealOnce w | complete w | stamp w =>
    simp only [step] at h
    split at h
    · next f hf =>
      obtain ⟨hst, h⟩ := Option.ite_none_right_eq_some.mp h
      obtain rfl := Option.some.inj h
      refine ⟨.of_eq rfl rfl rfl rfl (Retired.update hf ?_), fun _ => .inl rfl⟩
      simp [hst]
    · cases h
  | clear u =>
    obtain ⟨-, h⟩ := Option.ite_none_right_eq_some.mp h
    obtain rfl := Option.some.inj h
    exact ⟨.of_eq rfl rfl rfl rfl fun _ h => h, fun _ => .inl rfl⟩
  | claim u a | row u a =>
    obtain ⟨-, h⟩ := Option.ite_none_right_eq_some.mp h
    obtain ⟨r', -, rfl⟩ := Option.map_eq_some_iff.mp h
    exact ⟨.of_eq rfl rfl rfl rfl fun _ h => h, fun _ => .inl rfl⟩
  | pruneTask u =>
    simp only [step] at h
    split at h
    · obtain ⟨-, h⟩ := Option.ite_none_right_eq_some.mp h
      obtain rfl := Option.some.inj h
      exact ⟨.of_eq rfl rfl rfl rfl fun _ h => h, fun _ => .inl rfl⟩
    · cases h
  | outcome u b held now ending =>
    obtain ⟨-, h⟩ := Option.ite_none_right_eq_some.mp h
    obtain ⟨r', hb, rfl⟩ := Option.map_eq_some_iff.mp h
    obtain ⟨r, hrow, ha⟩ := Option.bind_eq_some_iff.mp hb
    have hput : (s.putRow u r').RecordInv := hr.putRow hrow ha rfl
    split_ifs
    · have hrec : (s.putRow u r').Retains
          ((s.putRow u r').recordNodeOutcome u r'.row.status r'.row.leaseEpoch) := by
        apply Retains.recordNodeOutcome hput
        rw [row_putRow, if_pos rfl]
      obtain ⟨nodes, edges, heq⟩ :=
        recordNodeOutcome_frame (s.putRow u r') u r'.row.status r'.row.leaseEpoch
      refine ⟨hrec.of_putRow, fun y => .inl ?_⟩
      rw [heq]
      rfl
    · exact ⟨.of_eq rfl rfl rfl rfl fun _ h => h, fun _ => .inl rfl⟩
  | startAdd x w name wanted =>
    simp only [step] at h
    split at h
    · next upstream hx hres =>
      obtain rfl := Option.some.inj h
      refine Retains.pass (.of_eq rfl rfl rfl rfl fun _ h => h) rfl fun u hu => ?_
      obtain ⟨n, hn, hw, rfl⟩ := mem_resolveDependencies hres u hu
      refine ⟨hr.nodeUsed n hn, fun n' hn' ht => ?_⟩
      rw [hr.node n' hn' n hn ht]
      exact hw
    · cases h
  | readSucceeded x size =>
    simp only [step] at h
    split at h
    · next w name upstream unread won hx =>
      obtain rfl := Option.some.inj h
      have hok : s.RetireOk (.adding w name upstream unread won) := hx ▸ hi.passes x
      exact Retains.pass (.of_eq rfl rfl rfl rfl fun _ h => h) rfl hok
    · cases h
  | commitAdd x task call inherited now =>
    simp only [step] at h
    split at h
    · next w name upstream won hx =>
      have hok : s.RetireOk (.adding w name upstream [] won) := hx ▸ hi.passes x
      split at h
      · next f hf =>
        obtain ⟨⟨hopen, hnew, -⟩, h⟩ := Option.ite_none_right_eq_some.mp h
        obtain rfl := Option.some.inj h
        have hlive : ¬ s.Retired w := by
          rintro ⟨f', hf', hst, -⟩
          obtain rfl : f = f' := Option.some.inj (hf.symm.trans hf')
          simp [hopen] at hst
        refine Retains.pass (x := x) (p := .idle) ?_ rfl trivial
        have hadd : s.Retains (s.insertNode w f name task
            (addedRow call inherited now upstream won) upstream won) := .insertNode hlive hnew hok
        exact hadd.of_eq_right rfl rfl rfl rfl rfl
      · cases h
    · cases h
  | markProven x locked =>
    simp only [step] at h
    split at h
    · next edges proven hx =>
      obtain rfl := Option.some.inj h
      refine Retains.pass (x := x) (p := .idle) (.marks (fun e => ?_) rfl rfl rfl rfl rfl) rfl
        trivial
      split_ifs <;> simp
    · cases h
  | commitRepairs x =>
    simp only [step] at h
    split at h
    · next records hx =>
      obtain rfl := Option.some.inj h
      have hok : s.PassOk (.repairing records) := hx ▸ ho.passes x
      have hmem : ∀ r ∈ records, r ∈ (s.passes x).records := by
        rw [hx]
        exact fun r hr => hr
      refine Retains.pass (x := x) (p := .idle) ?_ rfl trivial
      exact .commitRepairs hr (fun r hr' => ⟨hr.fits_read (hmem r hr'), (hok r hr').2.1⟩) _
    · cases h
  | writeRecords x locked =>
    simp only [step] at h
    split at h
    · next records hx =>
      obtain rfl := Option.some.inj h
      have hok : s.PassOk (.looking [] records) := hx ▸ ho.passes x
      have hrecords : (s.passes x).records = records := by
        rw [hx]
        rfl
      refine Retains.pass (x := x) (p := .idle) (.writeRecords hr (fun r hr' => ?_) _) rfl trivial
      obtain ⟨hmem, hlocked⟩ := List.mem_filter.mp hr'
      rw [decide_eq_true_eq] at hlocked
      have hread : r ∈ (s.passes x).records := hrecords ▸ hmem
      exact ⟨hr.fits_read hread, fun n hn hpk =>
        ⟨(hok.2 r hmem).2.1 n hn hpk, hc r hread hlocked n hn hpk⟩⟩
    · cases h
  | releaseMany x now =>
    simp only [step] at h
    split at h
    · next pairs hx =>
      obtain ⟨-, h⟩ := Option.ite_none_right_eq_some.mp h
      obtain rfl := Option.some.inj h
      obtain ⟨rows, won, heq⟩ := updateMany_frame s pairs fun e => .release e now
      rw [heq]
      exact Retains.pass (x := x) (p := .idle) (.of_eq rfl rfl rfl rfl fun _ h => h) rfl trivial
    · cases h
  | lockDoomed x =>
    simp only [step] at h
    split at h
    · split at h
      · obtain rfl := Option.some.inj h
        exact Retains.pass (.of_eq rfl rfl rfl rfl fun _ h => h) rfl trivial
      · obtain ⟨-, h⟩ := Option.ite_none_right_eq_some.mp h
        obtain rfl := Option.some.inj h
        exact Retains.pass (.of_eq rfl rfl rfl rfl fun _ h => h) rfl trivial
    · cases h
  | cancelMany x now =>
    simp only [step] at h
    split at h
    · next w doomed pairs hx =>
      obtain ⟨-, h⟩ := Option.ite_none_right_eq_some.mp h
      obtain rfl := Option.some.inj h
      have hmany : (s.updateMany pairs fun e => .cancelMany e now).RecordInv :=
        hr.updateMany fun _ => rfl
      obtain ⟨rows, won, heq⟩ := updateMany_frame s pairs fun e => .cancelMany e now
      have hret : s.Retains (s.updateMany pairs fun e => .cancelMany e now) := by
        rw [heq]
        exact .of_eq rfl rfl rfl rfl fun _ h => h
      have hrec := hret.recordDiscarded hmany pairs
      obtain ⟨nodes, hframe⟩ :=
        recordDiscarded_frame (s.updateMany pairs fun e => .cancelMany e now) pairs
      split_ifs
      · refine Retains.pass (x := x) (p := .idle) (hret.of_eq_right rfl rfl rfl rfl rfl) ?_ trivial
        rw [heq]
        rfl
      · refine Retains.pass (x := x) (p := .idle) (hrec.of_eq_right rfl rfl rfl rfl rfl) ?_ trivial
        rw [hframe, heq]
        rfl
    · cases h
  | classifyRetirable x w =>
    simp only [step] at h
    split at h
    · next f hx hf =>
      obtain ⟨⟨hst, hret, -⟩, h⟩ := Option.ite_none_right_eq_some.mp h
      obtain rfl := Option.some.inj h
      exact Retains.pass (.of_eq rfl rfl rfl rfl fun _ h => h) rfl ⟨f, hf, hst, hret⟩
    · cases h
  | readChunk x size =>
    simp only [step] at h
    split at h
    · next w after hx =>
      obtain rfl := Option.some.inj h
      have hw : s.Retired w := by
        have hok := hi.passes x
        rwa [hx] at hok
      refine Retains.pass (.of_eq rfl rfl rfl rfl fun _ h => h) rfl ⟨hw, fun c hc => ?_⟩
      obtain ⟨n, hn, rfl⟩ := List.mem_map.mp hc
      obtain ⟨hmem, hkeep⟩ := List.mem_filter.mp (List.mem_of_mem_take hn)
      rw [decide_eq_true_eq] at hkeep
      refine ⟨ho.nodeKeys n hmem, fun n' hn' hpk => ?_⟩
      obtain rfl : n' = n := hr.node n' hn' n hmem (ho.nodeKey n' hn' n hmem hpk)
      exact ⟨rfl, hkeep.1, id, .inl⟩
    · cases h
  | retireChunk x =>
    simp only [step] at h
    split at h
    · next w c chunk hx =>
      obtain ⟨-, h⟩ := Option.ite_none_right_eq_some.mp h
      obtain rfl := Option.some.inj h
      have hok : s.RetireOk (.chunked w (c :: chunk)) := hx ▸ hi.passes x
      refine Retains.pass ?_ rfl hok.1
      exact (Retains.retire hok.1 hok.2).of_eq_right rfl rfl rfl rfl rfl
    · cases h
  | abort x =>
    obtain rfl := Option.some.inj h
    exact Retains.pass (x := x) (p := .idle) (.of_eq rfl rfl rfl rfl fun _ h => h) rfl trivial
  | _ =>
    simp only [step] at h
    repeat' split at h
    all_goals cases h
    all_goals exact Retains.pass (.of_eq rfl rfl rfl rfl fun _ h => h) rfl trivial

theorem step_retire {a : WorkflowAction} (ho : s.OrderInv) (hr : s.RecordInv) (hi : s.RetireInv)
    (hc : s.LeavesRetired a) (h : step s a = some s') : s'.RetireInv :=
  have hret := step_retains ho hr hi hc h
  hi.retains hret.1 hret.2

theorem reachable_retire (h : workflowSystem.ReachesBy LeavesRetired s) :
    s.OrderInv ∧ s.RecordInv ∧ s.RetireInv :=
  h.invariant (fun s => s.OrderInv ∧ s.RecordInv ∧ s.RetireInv)
    (fun _ hs => ⟨order_of_start hs, record_of_start hs, retire_of_start hs⟩)
    fun _ _ _ hi hc hs =>
      ⟨step_order hi.1 hs, step_record hi.1 hi.2.1 hs, step_retire hi.1 hi.2.1 hi.2.2 hc hs⟩

/-- An upstream that is not proven holds back a row that can still move. -/
theorem OrderInv.blocked (hi : s.OrderInv) {ds : List TaskId} {st : Status}
    (hd : s.declared t = some ds) (hst : s.status t = some st) (hm : ¬ st.Retirable) (hu : u ∈ ds)
    (hp : ¬ s.Proven u t) : s.blockingEdges t ≠ [] := by
  obtain ⟨e, he, rfl, rfl⟩ := hi.gates t ds st hd hst hm u hu
  refine List.ne_nil_of_mem (a := e) (List.mem_filter.mpr ⟨he, ?_⟩)
  rw [decide_eq_true_eq]
  refine ⟨rfl, ?_, fun hs => hp (.inr (.inl hs))⟩
  by_contra hsat
  exact hp (.inl ⟨e, he, rfl, rfl, by simpa using hsat⟩)

theorem recorded_eq_of_mem (hr : s.RecordInv) {n : OxpullWorkflowNode} (hn : n ∈ s.nodes) :
    s.recorded n.task = n.outcome := by
  unfold recorded nodeOf
  cases hf : s.nodes.find? (·.task = n.task) with
  | none =>
    have := List.find?_eq_none.mp hf n hn
    simp at this
  | some m =>
    have htask : m.task = n.task := by simpa using List.find?_some hf
    obtain rfl : m = n := hr.node m (List.mem_of_find?_eq_some hf) n hn htask
    rfl

section chunk

variable {c : ℕ × TaskId × Option Status} {chunk : List (ℕ × TaskId × Option Status)}

/-- The edges into a row that can still move are not deleted. -/
theorem edge_retire {e : OxpullWorkflowEdge} {st : Status} (he : e ∈ s.edges)
    (hst : s.status e.downstream = some st) (hm : ¬ st.Retirable) :
    ∃ e' ∈ (s.retire w chunk).edges, e'.pk = e.pk ∧ e'.upstream = e.upstream ∧
      e'.downstream = e.downstream ∧ (e.satisfied = true → e'.satisfied = true) ∧
      (e.workflow = w → e.upstream ∈ s.goingSucceeded chunk → e'.satisfied = true) := by
  have hstay : ¬ (e.workflow = w ∧ e.downstream ∈ (s.going chunk).map (·.2.1)) := by
    rintro ⟨-, hgo⟩
    obtain ⟨c, hc, hdown⟩ := List.mem_map.mp hgo
    exact hm ((mem_going.mp hc).2.1 st (hdown ▸ hst))
  refine ⟨_, List.mem_map_of_mem (List.mem_filter.mpr ⟨he, decide_eq_true hstay⟩), ?_⟩
  split_ifs with h <;> simp_all

theorem mem_edges_retire {e' : OxpullWorkflowEdge} (h : e' ∈ (s.retire w chunk).edges) :
    ∃ e ∈ s.edges, e'.pk = e.pk ∧ e'.upstream = e.upstream ∧ e'.downstream = e.downstream ∧
      (e'.satisfied = true → e.satisfied = true ∨ e.upstream ∈ s.goingSucceeded chunk) := by
  obtain ⟨e, he, rfl⟩ := List.mem_map.mp h
  refine ⟨e, (List.mem_filter.mp he).1, ?_⟩
  split_ifs with h <;> simp_all

/-- What counts as succeeded in a chunk is SUCCESSFUL, or gone and recorded so. -/
theorem proven_of_goingSucceeded (hr : s.RecordInv) (hok : ∀ c ∈ chunk, s.ChunkOk w c)
    (hu : u ∈ s.goingSucceeded chunk) :
    s.status u = some .successful ∨ s.status u = none ∧ s.recorded u = some .successful := by
  obtain ⟨c, hmem, rfl⟩ := List.mem_map.mp hu
  obtain ⟨hgo, hwon⟩ := List.mem_filter.mp hmem
  obtain ⟨hchunk, -, n, hn, hpk, -⟩ := mem_going.mp hgo
  cases hst : s.status c.2.1 with
  | some st =>
    simp only [hst, decide_eq_true_eq] at hwon
    exact .inl (by rw [hwon])
  | none =>
    simp only [hst, decide_eq_true_eq] at hwon
    obtain ⟨htask, -, hread, -⟩ := (hok c hchunk).2 n hn hpk
    refine .inr ⟨rfl, ?_⟩
    rw [← htask, recorded_eq_of_mem hr hn]
    exact hread hwon

/-- A chunk leaves each upstream of a row that can still move as proven as it was. -/
theorem proven_retire (ho : s.OrderInv) (hr : s.RecordInv) (hi : s.RetireInv)
    (hok : ∀ c ∈ chunk, s.ChunkOk w c) {ds : List TaskId} {st : Status}
    (hd : s.declared t = some ds) (hst : s.status t = some st) (hm : ¬ st.Retirable) (hu : u ∈ ds) :
    (s.retire w chunk).Proven u t ↔ s.Proven u t := by
  have hstatus : ∀ u, (s.retire w chunk).status u = s.status u := fun _ => rfl
  constructor
  · rintro (⟨e', he', rfl, rfl, hsat⟩ | hwon | ⟨hgone, hrec⟩)
    · obtain ⟨e, he, -, hup, hdown, hmark⟩ := mem_edges_retire he'
      rcases hmark hsat with hold | hgo
      · exact .inl ⟨e, he, hup.symm, hdown.symm, hold⟩
      · rw [hup]
        exact .inr (proven_of_goingSucceeded hr hok hgo)
    · exact .inr (.inl hwon)
    · obtain ⟨n, hn, rfl, hout⟩ := recorded_mem hrec
      have hmem : n ∈ s.nodes := (List.mem_filter.mp hn).1
      refine .inr (.inr ⟨hgone, ?_⟩)
      rw [recorded_eq_of_mem hr hmem]
      exact hout
  · rintro (⟨e, he, rfl, rfl, hsat⟩ | hwon | ⟨hgone, hrec⟩)
    · obtain ⟨e', he', -, hup, hdown, hkeep, -⟩ : ∃ e' ∈ (s.retire w chunk).edges, _ :=
        edge_retire he hst hm
      exact .inl ⟨e', he', hup, hdown, hkeep hsat⟩
    · exact .inr (.inl hwon)
    · -- the record that proved it may go, and then the edge takes the mark
      obtain ⟨n, hn, rfl, hout⟩ := recorded_mem hrec
      by_cases hstay : n ∈ (s.retire w chunk).nodes
      · refine .inr (.inr ⟨hgone, ?_⟩)
        have hr' : (s.retire w chunk).RecordInv := hr.retire w chunk
        rw [recorded_eq_of_mem hr' hstay]
        exact hout
      · have hgo : n.pk ∈ (s.going chunk).map (·.1) := by
          by_contra hne
          exact hstay (List.mem_filter.mpr ⟨hn, by simp [hne]⟩)
        obtain ⟨c, hc, hpk⟩ := List.mem_map.mp hgo
        obtain ⟨hchunk, -⟩ := mem_going.mp hc
        obtain ⟨htask, hwf, -, hnew⟩ := (hok c hchunk).2 n hn hpk.symm
        obtain ⟨e, he, hup, rfl⟩ := ho.gates t ds st hd hst hm _ hu
        obtain ⟨e', he', -, hup', hdown, hkeep, hmark⟩ : ∃ e' ∈ (s.retire w chunk).edges, _ :=
          edge_retire he hst hm
        refine .inl ⟨e', he', hup'.trans hup, hdown, ?_⟩
        rcases hnew hout with hread | hmarked
        · refine hmark ((hi.home e he n hn hup.symm).symm.trans hwf) ?_
          refine List.mem_map.mpr ⟨c, List.mem_filter.mpr ⟨hc, ?_⟩, htask.symm.trans hup.symm⟩
          rw [← htask, hgone]
          simpa using hread
        · exact hkeep (hmarked e he hup)

end chunk

end WorkflowState

/-- Retiring a workflow keeps its gate. In every run, an upstream that is not proven holds back each
row that can still move; and a chunk leaves the upstreams of such a row proven or not as they
were, keeps every edge into a FAILED or LOST row and every node without a record, and marks no
edge but those out of rows that have been SUCCESSFUL. -/
theorem retire_keeps_gate {s : WorkflowState}
    (h : workflowSystem.ReachesBy WorkflowState.LeavesRetired s) :
    (∀ t ds st, s.declared t = some ds → s.status t = some st → ¬ st.Retirable →
      ∀ u ∈ ds, ¬ s.Proven u t → s.blockingEdges t ≠ []) ∧
    ∀ x s', workflowSystem.step s (.retireChunk x) = some s' →
      (∀ t ds st, s.declared t = some ds → s'.status t = some st → ¬ st.Retirable →
        ∀ u ∈ ds, (s'.Proven u t ↔ s.Proven u t) ∧ (¬ s'.Proven u t → s'.blockingEdges t ≠ [])) ∧
      (∀ e ∈ s.edges, s.status e.downstream = some .failed ∨ s.status e.downstream = some .lost →
        ∃ e' ∈ s'.edges, e'.pk = e.pk ∧ e'.upstream = e.upstream ∧ e'.downstream = e.downstream) ∧
      (∀ n ∈ s.nodes, n.outcome = none → n ∈ s'.nodes) ∧
      ∀ e' ∈ s'.edges, e'.satisfied = true →
        (∃ e ∈ s.edges, e.pk = e'.pk ∧ e.satisfied = true) ∨ s.SucceededBefore e'.upstream := by
  obtain ⟨ho, hr, hi⟩ := WorkflowState.reachable_retire h
  refine ⟨fun t ds st hd hst hm u hu hp => ho.blocked hd hst hm hu hp, fun x s' hs => ?_⟩
  change WorkflowState.step s (.retireChunk x) = some s' at hs
  have ho' : s'.OrderInv := WorkflowState.step_order ho hs
  simp only [WorkflowState.step] at hs
  split at hs
  · next w c chunk hx =>
    obtain ⟨-, hs⟩ := Option.ite_none_right_eq_some.mp hs
    obtain rfl := Option.some.inj hs
    have hok : s.RetireOk (.chunked w (c :: chunk)) := hx ▸ hi.passes x
    refine ⟨fun t ds st hd hst hm u hu => ⟨?_, ?_⟩, fun e he hst => ?_, fun n hn hout => ?_,
      fun e' he' hsat => ?_⟩
    · exact WorkflowState.proven_retire ho hr hi hok.2 hd hst hm hu
    · exact ho'.blocked hd hst hm hu
    · obtain ⟨st, hst, hm⟩ : ∃ st, s.status e.downstream = some st ∧ ¬ st.Retirable := by
        rcases hst with hst | hst
        · exact ⟨.failed, hst, by simp [Status.Retirable]⟩
        · exact ⟨.lost, hst, by simp [Status.Retirable]⟩
      obtain ⟨e', he', hpk, hup, hdown, -⟩ : ∃ e' ∈ (s.retire w (c :: chunk)).edges, _ :=
        WorkflowState.edge_retire he hst hm
      exact ⟨e', he', hpk, hup, hdown⟩
    · exact List.mem_filter.mpr ⟨hn, by simp [hout]⟩
    · obtain ⟨e, he, hpk, hup, -, hmark⟩ := WorkflowState.mem_edges_retire he'
      rcases hmark hsat with hold | hgo
      · exact .inl ⟨e, he, hpk.symm, hold⟩
      · refine .inr (WorkflowState.succeededBefore_of_mem h.reachable ?_)
        rw [hup]
        refine ho.goingSucceeded (fun c' hc' hread => ?_) _ hgo
        have hpass : s.PassOk (.chunked w (c :: chunk)) := hx ▸ ho.passes x
        exact hpass c' hc' hread
  · cases hs

/-- "b" fails behind "a", which succeeded. The workflow is sealed, completed and retired, and "b" is
retried between the read of a chunk and its deletes. -/
def retriedWhileRetired : List WorkflowAction :=
  [.create 0, .startAdd 0 0 "a" [], .commitAdd 0 1 oneAttempt 1 0, .startAdd 0 0 "b" ["a"],
    .readSucceeded 0 100, .commitAdd 0 2 oneAttempt 1 0, .sealOnce 0, .clear 1,
    .claim 1 (.claimPostgresql (soloWorker "w1") 5 5),
    .outcome 1 ⟨1, 1⟩ (heldAttempt [] 1 1) 6 (.returned none),
    .startRelease 0 [2], .readHeld 0, .readWaiting 0, .releaseMany 0 4, .clear 2,
    .claim 2 (.claimPostgresql (soloWorker "w1") 5 5),
    .outcome 2 ⟨1, 1⟩ { heldAttempt [] 1 1 with runAfter := some 4 } 9 (.raised ⟨"E", ""⟩ none),
    .complete 0, .stamp 0, .classifyRetirable 0 0, .readChunk 0 100, .pruneTask 1,
    .row 2 .retryMany]

theorem retire_keeps_gate_retried :
    ∃ s s', workflowSystem.run noWorkflow retriedWhileRetired = some s ∧
      workflowSystem.step s (.retireChunk 0) = some s' ∧ s'.nodes.map (·.name) = ["b"] ∧
      s.status 1 = none ∧ (s'.Proven 1 2 ↔ s.Proven 1 2) ∧ s.Proven 1 2 := by
  have kept : ∀ s s', (workflowSystem.only fun _ a => a.WritesRecords = false).run noWorkflow
        retriedWhileRetired = some s → workflowSystem.step s (.retireChunk 0) = some s' →
      s.declared 2 = some [1] → s'.status 2 = some .ready → (s'.Proven 1 2 ↔ s.Proven 1 2) := by
    intro s s' hrun hs hd hst
    have hreach : workflowSystem.ReachesBy WorkflowState.LeavesRetired s :=
      System.ReachesBy.run (fun _ _ h => WorkflowState.leavesRetired_of_not h)
        (.init noWorkflow_start) hrun
    exact (((retire_keeps_gate hreach).2 0 s' hs).1 2 [1] .ready hd hst
      (by simp [Status.Retirable]) 1 (by simp)).1
  refine ⟨_, _, rfl, rfl, rfl, rfl, kept _ _ rfl rfl rfl rfl, .inl ?_⟩
  exact ⟨⟨1, 0, 1, 2, true⟩, by decide, rfl, rfl, rfl⟩

end DjangoOx
