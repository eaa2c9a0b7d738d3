import Mathlib.Data.Finset.Card
import DjangoOx.Workflow.Cancel
import Mathlib.Order.Lattice

/-! One level of a cancellation with no other writer: it discards every node behind an upstream
that dooms, and nothing else. -/
namespace DjangoOx

open Machine

namespace WorkflowState

variable {s s' : WorkflowState} {x w : ℕ} {t u : TaskId} {p : WorkflowPass} {now : ℤ}

/-- No party is between its steps, and nobody holds a lock. -/
def Quiet (s : WorkflowState) : Prop :=
  (∀ x, s.passes x = .idle) ∧ (∀ t, s.holder t = none) ∧ ∀ w, s.owner w = none

def Sealed (s : WorkflowState) (w : ℕ) : Prop :=
  ∃ f, s.workflows w = some f ∧ f.status = .sealed

/-- The upstreams a level reads. -/
def upstreams (s : WorkflowState) (w : ℕ) : List TaskId :=
  ((s.cancellableEdges w).map (·.upstream)).dedup

def foundUpstreams (s : WorkflowState) (w : ℕ) : List TaskId :=
  (s.upstreams w).filter fun u => s.status u ≠ none

def goneUpstreams (s : WorkflowState) (w : ℕ) : List TaskId :=
  (s.upstreams w).filter fun u => s.status u = none

def doomedUpstreams (s : WorkflowState) (w : ℕ) : List TaskId :=
  ((s.foundUpstreams w).filter fun u => ∃ st ∈ s.status u, st.Dead) ++
    (s.goneUpstreams w).filter fun u => ∃ st ∈ s.recorded u, st.Dead

def cone (s : WorkflowState) (w : ℕ) (doomed : List TaskId) : List TaskId :=
  ((s.edges.filter fun e =>
    e.workflow = w ∧ e.satisfied = false ∧ e.upstream ∈ doomed).map (·.downstream)).dedup

def cancellablePairs (s : WorkflowState) (cone : List TaskId) : List (TaskId × ℕ) :=
  cone.filterMap fun t =>
    match s.row t with
    | some (st, e) => if st.Cancellable then some (t, e) else none
    | none => none

/-- The steps of `_cancel_one_level`. -/
def levelActions (s : WorkflowState) (x w : ℕ) (now : ℤ) : List WorkflowAction :=
  .readCancellable x w :: (List.replicate (s.foundUpstreams w).length (.lockDoomed x) ++
    [.readGone x, .readCone x, .readPairs x, .cancelMany x now])

/-- What a level writes. -/
def cancelPairs (s : WorkflowState) (pairs : List (TaskId × ℕ)) (now : ℤ) : WorkflowState :=
  let s' := s.updateMany pairs fun e => .cancelMany e now
  let moved := pairs.filter fun p =>
    s.status p.1 ≠ some .discarded ∧ s'.status p.1 = some .discarded
  if moved = [] then s' else s'.recordDiscarded pairs

/-- The same rows, nodes and edges under other locks and passes. -/
def relock (s : WorkflowState) (holder : TaskId → Option ℕ) (owner : ℕ → Option ℕ)
    (passes : ℕ → WorkflowPass) : WorkflowState :=
  { s with holder := holder, owner := owner, passes := passes }

section relock

variable (s) (holder : TaskId → Option ℕ) (owner : ℕ → Option ℕ) (passes : ℕ → WorkflowPass)

theorem update_relock (t : TaskId) (a : RowAction) :
    (s.relock holder owner passes).update t a = (s.update t a).relock holder owner passes := by
  unfold update
  have hrows : (s.relock holder owner passes).rows = s.rows := rfl
  rw [hrows]
  cases (s.rows t).bind (·.step a) <;> rfl

theorem updateMany_relock (pairs : List (TaskId × ℕ)) (a : ℕ → RowAction) :
    (s.relock holder owner passes).updateMany pairs a =
      (s.updateMany pairs a).relock holder owner passes := by
  unfold updateMany
  induction pairs generalizing s with
  | nil => rfl
  | cons q pairs ih => rw [List.foldl_cons, List.foldl_cons, update_relock, ih]

theorem recordDiscarded_relock (pairs : List (TaskId × ℕ)) :
    (s.relock holder owner passes).recordDiscarded pairs =
      (s.recordDiscarded pairs).relock holder owner passes := by
  unfold recordDiscarded
  have hrow : (s.relock holder owner passes).row = s.row := rfl
  rw [hrow]
  clear hrow
  generalize s.row = row
  induction pairs generalizing s with
  | nil => rfl
  | cons q pairs ih =>
    rw [List.foldl_cons, List.foldl_cons, ← ih]
    congr 1
    cases row q.1 with
    | none => rfl
    | some r =>
      by_cases hr : r.1 = .discarded
      · simp only [hr, if_true]
        rfl
      · simp only [hr, if_false]

theorem cancelPairs_relock (pairs : List (TaskId × ℕ)) (now : ℤ) :
    (s.relock holder owner passes).cancelPairs pairs now =
      (s.cancelPairs pairs now).relock holder owner passes := by
  unfold cancelPairs
  simp only [updateMany_relock]
  have hstatus : ∀ s : WorkflowState, (s.relock holder owner passes).status = s.status :=
    fun _ => rfl
  simp only [hstatus]
  split_ifs
  · rfl
  · rw [recordDiscarded_relock]

end relock

/-- The party locks every row it found. -/
theorem run_lockDoomed {found gone doomed : List TaskId} {holder : TaskId → Option ℕ}
    {owner : ℕ → Option ℕ} {passes : ℕ → WorkflowPass}
    (hx : passes x = .cancelling w found gone doomed)
    (hfree : ∀ u, holder u = none ∨ holder u = some x) (hthere : ∀ u ∈ found, s.status u ≠ none) :
    ∃ holder', workflowSystem.run (s.relock holder owner passes)
        (List.replicate found.length (.lockDoomed x)) =
      some (s.relock holder' owner (Function.update passes x (.cancelling w [] gone
        (doomed ++ found.filter fun u => ∃ st ∈ s.status u, st.Dead)))) ∧
      ∀ u, holder' u = none ∨ holder' u = some x := by
  induction found generalizing holder passes doomed with
  | nil =>
    refine ⟨holder, ?_, hfree⟩
    simp [System.run, ← hx, Function.update_eq_self]
  | cons u found ih =>
    obtain ⟨st, hst⟩ := Option.ne_none_iff_exists'.mp (hthere u List.mem_cons_self)
    have hst' : (s.relock holder owner passes).status u = some st := hst
    have hx' : (s.relock holder owner passes).passes x = .cancelling w (u :: found) gone doomed := hx
    have hstep : step (s.relock holder owner passes) (.lockDoomed x) =
        some (s.relock (Function.update holder u (some x)) owner (Function.update passes x
          (.cancelling w found gone (if st.Dead then doomed ++ [u] else doomed)))) := by
      simp only [step, hx', hst']
      exact if_pos (hfree u)
    have hfree' : ∀ v, Function.update holder u (some x) v = none ∨
        Function.update holder u (some x) v = some x := by
      intro v
      by_cases hv : v = u
      · exact .inr (hv ▸ Function.update_self ..)
      · rw [Function.update_of_ne hv]
        exact hfree v
    obtain ⟨holder', hrun, hholder⟩ := ih (Function.update_self ..) hfree'
      fun v hv => hthere v (List.mem_cons_of_mem _ hv)
    refine ⟨holder', (System.run_cons hstep).trans (hrun.trans ?_), hholder⟩
    have hlist : (if st.Dead then doomed ++ [u] else doomed) ++
        (found.filter fun u => ∃ st ∈ s.status u, st.Dead) =
          doomed ++ (u :: found).filter fun u => ∃ st ∈ s.status u, st.Dead := by
      by_cases hd : st.Dead <;> simp [hst, hd]
    rw [← hlist, Function.update_idem]

section reads

variable {holder : TaskId → Option ℕ} {owner : ℕ → Option ℕ} {passes : ℕ → WorkflowPass}
  {gone doomed cone : List TaskId} {pairs : List (TaskId × ℕ)}

theorem step_readGone (hx : passes x = .cancelling w [] gone doomed) :
    step (s.relock holder owner passes) (.readGone x) =
      some (s.relock holder owner (Function.update passes x
        (.doomed w (doomed ++ gone.filter fun u => ∃ st ∈ s.recorded u, st.Dead)))) := by
  have hx' : (s.relock holder owner passes).passes x = .cancelling w [] gone doomed := hx
  simp only [step, hx']
  rfl

theorem step_readCone (hx : passes x = .doomed w doomed) :
    step (s.relock holder owner passes) (.readCone x) =
      some (s.relock holder owner (Function.update passes x
        (.coned w doomed (s.cone w doomed)))) := by
  have hx' : (s.relock holder owner passes).passes x = .doomed w doomed := hx
  simp only [step, hx']
  rfl

theorem step_readPairs (hx : passes x = .coned w doomed cone) :
    step (s.relock holder owner passes) (.readPairs x) =
      some (s.relock holder owner (Function.update passes x
        (.cancelPairs w doomed (s.cancellablePairs cone)))) := by
  have hx' : (s.relock holder owner passes).passes x = .coned w doomed cone := hx
  simp only [step, hx']
  rfl

theorem step_cancelMany (hx : passes x = .cancelPairs w doomed pairs)
    (hfree : ∀ u, holder u = none ∨ holder u = some x) :
    step (s.relock holder owner passes) (.cancelMany x now) =
      some (((s.cancelPairs pairs now).relock holder owner
        (Function.update passes x .idle)).unlock x) := by
  have hx' : (s.relock holder owner passes).passes x = .cancelPairs w doomed pairs := hx
  have hfree' : ∀ p ∈ pairs, (s.relock holder owner passes).Free x p.1 := fun p _ => hfree p.1
  have h : step (s.relock holder owner passes) (.cancelMany x now) =
      some ((((s.relock holder owner passes).cancelPairs pairs now).setPass x .idle).unlock x) := by
    simp only [step, hx', if_pos hfree']
    rfl
  rw [h, cancelPairs_relock]
  rfl

end reads

/-- The pairs a level with no other writer cancels. -/
def levelPairs (s : WorkflowState) (w : ℕ) : List (TaskId × ℕ) :=
  s.cancellablePairs (s.cone w (s.doomedUpstreams w))

/-- Rows and records are written, and nothing else. -/
theorem cancelPairs_frame (s : WorkflowState) (pairs : List (TaskId × ℕ)) (now : ℤ) :
    ∃ rows succeeded nodes, s.cancelPairs pairs now =
      { s with rows := rows, succeeded := succeeded, nodes := nodes } := by
  obtain ⟨rows, succeeded, heq⟩ := updateMany_frame s pairs fun e => .cancelMany e now
  unfold cancelPairs
  simp only [heq]
  split_ifs
  · exact ⟨_, _, s.nodes, rfl⟩
  · obtain ⟨nodes, h⟩ := recordDiscarded_frame { s with rows := rows, succeeded := succeeded } pairs
    exact ⟨_, _, nodes, h⟩

theorem run_level (hq : s.Quiet) (hs : s.Sealed w) :
    workflowSystem.run s (s.levelActions x w now) = some (s.cancelPairs (s.levelPairs w) now) := by
  obtain ⟨hpasses, hholder, howner⟩ := hq
  obtain ⟨f, hf, hst⟩ := hs
  have hread : step s (.readCancellable x w) = some (s.relock s.holder
      (Function.update s.owner w (some x)) (Function.update s.passes x
        (.cancelling w (s.foundUpstreams w) (s.goneUpstreams w) []))) := by
    simp only [step, hpasses x, hf]
    exact if_pos ⟨hst, howner w⟩
  obtain ⟨holder, hlock, hfree⟩ := run_lockDoomed
    (Function.update_self x (.cancelling w (s.foundUpstreams w) (s.goneUpstreams w) []) s.passes)
    (fun u => .inl (hholder u)) fun u hu => by simpa using (List.mem_filter.mp hu).2
  unfold levelActions
  rw [System.run_cons hread, System.run_append, hlock, Option.bind_some, Function.update_idem,
    System.run_cons (step_readGone (Function.update_self ..)), Function.update_idem,
    System.run_cons (step_readCone (Function.update_self ..)), Function.update_idem,
    System.run_cons (step_readPairs (Function.update_self ..)), Function.update_idem,
    System.run_cons (step_cancelMany (Function.update_self ..) hfree), Function.update_idem]
  have hpairs : s.cancellablePairs (s.cone w ([] ++ (s.foundUpstreams w).filter
      (fun u => ∃ st ∈ s.status u, st.Dead) ++ (s.goneUpstreams w).filter
        fun u => ∃ st ∈ s.recorded u, st.Dead)) = s.levelPairs w := rfl
  rw [hpairs]
  obtain ⟨rows, succeeded, nodes, heq⟩ := s.cancelPairs_frame (s.levelPairs w) now
  have hh : (fun t => if holder t = some x then none else holder t) = s.holder := by
    funext t
    rw [hholder]
    rcases hfree t with h | h <;> simp [h]
  have ho : (fun v => if Function.update s.owner w (some x) v = some x then none
      else Function.update s.owner w (some x) v) = s.owner := by
    funext v
    by_cases hv : v = w <;> simp [hv, howner]
  have hp : Function.update s.passes x .idle = s.passes := by
    rw [← hpasses x, Function.update_eq_self]
  rw [heq]
  simp only [System.run, unlock, relock, hh, ho, hp]

/-- A cancelled row was READY or WAITING at the epoch of its pair; no other row is touched. -/
theorem row_updateMany_cancel (s : WorkflowState) (pairs : List (TaskId × ℕ)) (now : ℤ)
    (t : TaskId) : (s.updateMany pairs fun e => .cancelMany e now).row t = s.row t ∨
      ∃ st e, (t, e) ∈ pairs ∧ s.row t = some (st, e) ∧ st.Cancellable ∧
        (s.updateMany pairs fun e => .cancelMany e now).row t = some (.discarded, e) := by
  refine updateMany_induction (P := fun s' => s'.row t = s.row t ∨
    ∃ st e, (t, e) ∈ pairs ∧ s.row t = some (st, e) ∧ st.Cancellable ∧
      s'.row t = some (.discarded, e)) s (.inl rfl) ?_
  intro s' hs' q hq
  rcases update_cases s' q.1 (.cancelMany q.2 now) with h | ⟨r, r', hrow, hstep, h⟩
  · rw [h]
    exact hs'
  · rw [h, row_putRow]
    split_ifs with ht
    · obtain ⟨new, hnew, rfl⟩ := Option.map_eq_some_iff.mp hstep
      obtain ⟨⟨hcan, he⟩, rfl⟩ := OxTask.cancelMany_eq_some.mp hnew
      have hrow' : s'.row t = some (r.row.status, q.2) := by
        rw [ht, ← he]
        simp [row, hrow]
      rcases hs' with hsame | ⟨st, e, -, -, -, hdone⟩
      · refine .inr ⟨r.row.status, q.2, ht ▸ hq, hsame ▸ hrow', hcan, ?_⟩
        rw [← he]
        rfl
      · rw [hrow'] at hdone
        obtain ⟨hd, -⟩ := Prod.mk.inj (Option.some.inj hdone)
        rw [hd] at hcan
        simp [Status.Cancellable] at hcan
    · exact hs'

theorem cancel_of_mem {pairs : List (TaskId × ℕ)} {st : Status} {e : ℕ} (hmem : (t, e) ∈ pairs)
    (hrow : s.row t = some (st, e)) (hcan : st.Cancellable) (now : ℤ) :
    (s.updateMany pairs fun e => .cancelMany e now).row t = some (.discarded, e) := by
  unfold updateMany
  induction pairs generalizing s with
  | nil => cases hmem
  | cons q pairs ih =>
    rw [List.foldl_cons]
    by_cases hq : q = (t, e)
    · -- the row is DISCARDED by the first pair, and later pairs leave it so
      subst hq
      obtain ⟨r, hr, hreq⟩ := Option.map_eq_some_iff.mp hrow
      obtain ⟨rfl, rfl⟩ := Prod.mk.inj hreq
      have hput : s.update t (.cancelMany r.row.leaseEpoch now) =
          s.putRow t (r.commit .cancelled (r.row.discarded now)) := by
        unfold update
        simp [hr, RowState.step, OxTask.cancelMany, hcan]
      have hnow : (s.update t (.cancelMany r.row.leaseEpoch now)).row t =
          some (.discarded, r.row.leaseEpoch) := by
        rw [hput, row_putRow, if_pos rfl]
        rfl
      rcases row_updateMany_cancel (s.update t (.cancelMany r.row.leaseEpoch now)) pairs now t with
        h | ⟨st', e', -, hrow', hcan', -⟩
      · exact h.trans hnow
      · rw [hnow] at hrow'
        obtain ⟨rfl, -⟩ := Prod.mk.inj (Option.some.inj hrow')
        simp [Status.Cancellable] at hcan'
    · have hmem' : (t, e) ∈ pairs := (List.mem_cons.mp hmem).resolve_left (Ne.symm hq)
      rcases row_updateMany_cancel s [q] now t with h | ⟨st', e', hin, hrow', -, -⟩
      · exact ih hmem' (h.trans hrow)
      · rw [hrow] at hrow'
        obtain ⟨-, rfl⟩ := Prod.mk.inj (Option.some.inj hrow')
        exact absurd (List.mem_singleton.mp hin).symm hq

theorem row_cancelPairs (s : WorkflowState) (pairs : List (TaskId × ℕ)) (now : ℤ) :
    (s.cancelPairs pairs now).row = (s.updateMany pairs fun e => .cancelMany e now).row := by
  unfold cancelPairs
  dsimp only
  split_ifs
  · rfl
  · obtain ⟨nodes, h⟩ :=
      recordDiscarded_frame (s.updateMany pairs fun e => .cancelMany e now) pairs
    rw [h]
    rfl

theorem status_eq_row (s : WorkflowState) (t : TaskId) : s.status t = (s.row t).map (·.1) := by
  unfold status row
  cases s.rows t <;> rfl

theorem mem_cancellableEdges {e : OxpullWorkflowEdge} :
    e ∈ s.cancellableEdges w ↔ e ∈ s.edges ∧ e.workflow = w ∧ e.satisfied = false ∧
      s.Dead e.upstream ∧ s.Cancellable e.downstream := by
  unfold cancellableEdges
  rw [List.mem_filter, decide_eq_true_eq]

theorem mem_doomedUpstreams :
    u ∈ s.doomedUpstreams w ↔ u ∈ (s.cancellableEdges w).map (·.upstream) := by
  have hdead : u ∈ (s.cancellableEdges w).map (·.upstream) → s.Dead u := by
    intro h
    obtain ⟨e, he, rfl⟩ := List.mem_map.mp h
    exact (mem_cancellableEdges.mp he).2.2.2.1
  unfold doomedUpstreams foundUpstreams goneUpstreams upstreams
  simp only [List.mem_append, List.mem_filter, List.mem_dedup, decide_eq_true_eq]
  constructor
  · rintro (⟨⟨h, -⟩, -⟩ | ⟨⟨h, -⟩, -⟩) <;> exact h
  · intro h
    rcases hdead h with hst | ⟨hgone, hrec⟩
    · refine .inl ⟨⟨h, ?_⟩, hst⟩
      obtain ⟨st, hst, -⟩ := hst
      simp [Option.mem_def.mp hst]
    · exact .inr ⟨⟨h, hgone⟩, hrec⟩

/-- A level with no other writer cancels what `_cancellable_edges` holds. -/
theorem mem_levelPairs {e : ℕ} :
    (t, e) ∈ s.levelPairs w ↔ (∃ edge ∈ s.cancellableEdges w, edge.downstream = t) ∧
      ∃ st, s.row t = some (st, e) ∧ st.Cancellable := by
  have hrow : (t, e) ∈ s.levelPairs w ↔ t ∈ s.cone w (s.doomedUpstreams w) ∧
      ∃ st, s.row t = some (st, e) ∧ st.Cancellable := by
    unfold levelPairs cancellablePairs
    rw [List.mem_filterMap]
    constructor
    · rintro ⟨t', ht', hsome⟩
      split at hsome
      · next st e' hr =>
        obtain ⟨hcan, hsome⟩ := Option.ite_none_right_eq_some.mp hsome
        obtain ⟨rfl, rfl⟩ := Prod.mk.inj (Option.some.inj hsome)
        exact ⟨ht', st, hr, hcan⟩
      · cases hsome
    · rintro ⟨ht, st, hr, hcan⟩
      refine ⟨t, ht, ?_⟩
      simp only [hr, if_pos hcan]
  rw [hrow]
  refine and_congr_left fun ⟨st, hr, hcan⟩ => ?_
  have hcancellable : s.Cancellable t := ⟨st, status_of_row hr, hcan⟩
  unfold cone
  simp only [List.mem_dedup, List.mem_map, List.mem_filter, decide_eq_true_eq, mem_doomedUpstreams]
  constructor
  · rintro ⟨edge, ⟨hmem, hw, hsat, e', he', hup⟩, rfl⟩
    have hdead := (mem_cancellableEdges.mp he').2.2.2.1
    rw [hup] at hdead
    exact ⟨edge, mem_cancellableEdges.mpr ⟨hmem, hw, hsat, hdead, hcancellable⟩, rfl⟩
  · rintro ⟨edge, he, rfl⟩
    obtain ⟨hmem, hw, hsat, -⟩ := mem_cancellableEdges.mp he
    exact ⟨edge, ⟨hmem, hw, hsat, edge, he, rfl⟩, rfl⟩

theorem levelPairs_eq_nil : s.levelPairs w = [] ↔ s.cancellableEdges w = [] := by
  rw [List.eq_nil_iff_forall_not_mem, List.eq_nil_iff_forall_not_mem]
  constructor
  · intro h edge he
    obtain ⟨-, -, -, -, st, hst, hcan⟩ := mem_cancellableEdges.mp he
    rw [Option.mem_def, status_eq_row] at hst
    obtain ⟨⟨st', e⟩, hr, rfl⟩ := Option.map_eq_some_iff.mp hst
    exact h (edge.downstream, e) (mem_levelPairs.mpr ⟨⟨edge, he, rfl⟩, st', hr, hcan⟩)
  · rintro h ⟨t, e⟩ ht
    obtain ⟨⟨edge, he, -⟩, -⟩ := mem_levelPairs.mp ht
    exact h edge he

end WorkflowState

end DjangoOx
