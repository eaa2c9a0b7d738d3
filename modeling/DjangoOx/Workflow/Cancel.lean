import Mathlib.Data.List.Dedup
import DjangoOx.Workflow.LastWord
import DjangoOx.Workflow.Retire

/-! Cancelling a level: what dooms a node still dooms it when the transaction that discards it
commits. -/
namespace DjangoOx

open Machine

namespace WorkflowState

variable {s s' : WorkflowState} {x y w : ℕ} {t u : TaskId} {p : WorkflowPass}

/-- The row is in a dead status under the party's lock, or gone with a dead status on record. -/
def DeadUnder (s : WorkflowState) (x : ℕ) (u : TaskId) : Prop :=
  s.holder u = some x ∧ (∃ st ∈ s.status u, st.Dead) ∨
    s.status u = none ∧ ∃ st ∈ s.recorded u, st.Dead

/-- An upstream that dooms: it is dead, and never succeeded. -/
def Dooms (s : WorkflowState) (x w : ℕ) (u : TaskId) : Prop :=
  s.Home w u ∧ u ∉ s.succeeded ∧ s.DeadUnder x u

/-- An unmarked edge into the task from one of the doomed. -/
def Behind (s : WorkflowState) (w : ℕ) (doomed : List TaskId) (t : TaskId) : Prop :=
  ∃ e ∈ s.edges, e.workflow = w ∧ e.upstream ∈ doomed ∧ e.downstream = t ∧ e.satisfied = false

/-- What a level has read and locked. -/
def CancelOk (s : WorkflowState) (x : ℕ) : WorkflowPass → Prop
  | .cancelling w found gone doomed => s.owner w = some x ∧ (∀ u ∈ found, s.Home w u) ∧
      (∀ u ∈ gone, s.Home w u ∧ s.status u = none) ∧ ∀ u ∈ doomed, s.Dooms x w u
  | .doomed w doomed => s.owner w = some x ∧ ∀ u ∈ doomed, s.Dooms x w u
  | .coned w doomed cone => s.owner w = some x ∧ (∀ u ∈ doomed, s.Dooms x w u) ∧
      ∀ t ∈ cone, s.Behind w doomed t
  | .cancelPairs w doomed pairs => s.owner w = some x ∧ (∀ u ∈ doomed, s.Dooms x w u) ∧
      ∀ q ∈ pairs, s.Behind w doomed q.1
  | _ => True

structure CancelInv (s : WorkflowState) : Prop where
  owned : ∀ w x, s.owner w = some x → ∃ f, s.workflows w = some f ∧ f.status = .sealed
  heldUsed : ∀ u x, s.holder u = some x → u ∈ s.used
  passes : ∀ x, s.CancelOk x (s.passes x)

/-- A step does not touch what a party has locked, and brings no row back. -/
structure Spares (s s' : WorkflowState) (x : ℕ) : Prop where
  owner : ∀ w, s.owner w = some x → s'.owner w = some x
  held : ∀ u, s.holder u = some x → s'.holder u = some x ∧ s'.status u = s.status u
  gone : ∀ u ∈ s.used, s.status u = none → s'.status u = none

/-- What is known of a step whatever it does. -/
structure Carries (s s' : WorkflowState) : Prop where
  retains : s.Retains s'
  order : s'.OrderInv
  record : s'.RecordInv
  last : s'.LastInv
  won : ∀ u ∈ s'.succeeded, u ∈ s.succeeded ∨ s'.status u = some .successful

theorem CancelInv.live (hi : s.CancelInv) (h : s.owner w = some x) : ¬ s.Retired w := by
  rintro ⟨f, hf, hst, -⟩
  obtain ⟨g, hg, hst'⟩ := hi.owned w x h
  obtain rfl : f = g := Option.some.inj (hf.symm.trans hg)
  simp [hst] at hst'

theorem Dooms.mono (h : s.Dooms x w u) (hlive : ¬ s.Retired w) (hc : s.Carries s')
    (hs : s.Spares s' x) : s'.Dooms x w u := by
  obtain ⟨hhome, hnot, hdead⟩ := h
  have hnot' : u ∉ s'.succeeded := by
    intro hwon
    rcases hc.won u hwon with h | h
    · exact hnot h
    · rcases hdead with ⟨hheld, st, hst, hd⟩ | ⟨hgone, -⟩
      · rw [(hs.held u hheld).2] at h
        obtain rfl : st = .successful := Option.some.inj (hst.symm.trans h)
        simp [Status.Dead] at hd
      · rw [hs.gone u hhome.1 hgone] at h
        cases h
  refine ⟨hhome.mono hc.retains, hnot', ?_⟩
  rcases hdead with ⟨hheld, hst⟩ | ⟨hgone, st, hrec, hd⟩
  · obtain ⟨hheld', hsame⟩ := hs.held u hheld
    rw [← hsame] at hst
    exact .inl ⟨hheld', hst⟩
  · -- the record of a row that is gone stays, and never says SUCCESSFUL
    obtain ⟨n, hn, rfl, hout⟩ := recorded_mem hrec
    rw [← hhome.2 n hn rfl] at hlive
    obtain ⟨n', hn', htask, hkeep⟩ := hc.retains.keepsNodes n hn hlive
    obtain ⟨st', hout'⟩ := Option.ne_none_iff_exists'.mp (hkeep (by simp [hout]))
    refine .inr ⟨hs.gone _ hhome.1 hgone, st', ?_, ?_⟩
    · rw [← htask]
      exact (recorded_eq_of_mem hc.record hn').trans hout'
    · rcases hc.last.settled n' hn' st' hout' with rfl | hd'
      · exact absurd (htask ▸ hc.order.records n' hn' hout') hnot'
      · exact hd'

theorem Behind.mono {doomed : List TaskId} (h : s.Behind w doomed t) (hlive : ¬ s.Retired w)
    (hc : s.Carries s') (hd : ∀ u ∈ doomed, u ∉ s'.succeeded) : s'.Behind w doomed t := by
  obtain ⟨e, he, rfl, hup, rfl, -⟩ := h
  obtain ⟨e', he', hwf, hup', hdown⟩ := hc.retains.keepsEdges e he hlive
  refine ⟨e', he', hwf, hup' ▸ hup, hdown, ?_⟩
  by_contra hsat
  exact hd _ hup (hup' ▸ hc.order.marks e' he' (by simpa using hsat))

theorem CancelOk.mono (hi : s.CancelInv) (h : s.CancelOk x p) (hc : s.Carries s')
    (hs : s.Spares s' x) : s'.CancelOk x p := by
  cases p with
  | cancelling w found gone doomed =>
    obtain ⟨ho, hfound, hgone, hdoomed⟩ := h
    exact ⟨hs.owner w ho, fun u hu => (hfound u hu).mono hc.retains,
      fun u hu => ⟨(hgone u hu).1.mono hc.retains, hs.gone u (hgone u hu).1.1 (hgone u hu).2⟩,
      fun u hu => (hdoomed u hu).mono (hi.live ho) hc hs⟩
  | doomed w doomed =>
    obtain ⟨ho, hdoomed⟩ := h
    exact ⟨hs.owner w ho, fun u hu => (hdoomed u hu).mono (hi.live ho) hc hs⟩
  | coned w doomed cone =>
    obtain ⟨ho, hdoomed, hcone⟩ := h
    have hdoomed' := fun u hu => (hdoomed u hu).mono (hi.live ho) hc hs
    exact ⟨hs.owner w ho, hdoomed',
      fun t ht => (hcone t ht).mono (hi.live ho) hc fun u hu => (hdoomed' u hu).2.1⟩
  | cancelPairs w doomed pairs =>
    obtain ⟨ho, hdoomed, hpairs⟩ := h
    have hdoomed' := fun u hu => (hdoomed u hu).mono (hi.live ho) hc hs
    exact ⟨hs.owner w ho, hdoomed',
      fun q hq => (hpairs q hq).mono (hi.live ho) hc fun u hu => (hdoomed' u hu).2.1⟩
  | _ => trivial

theorem CancelInv.carries (hi : s.CancelInv) (hc : s.Carries s')
    (hown : ∀ w x, s'.owner w = some x → ∃ f, s'.workflows w = some f ∧ f.status = .sealed)
    (hheld : ∀ u x, s'.holder u = some x → u ∈ s'.used)
    (hp : ∀ y, s'.passes y = s.passes y ∧ s.Spares s' y ∨ s'.CancelOk y (s'.passes y)) :
    s'.CancelInv where
  owned := hown
  heldUsed := hheld
  passes y := by
    rcases hp y with ⟨heq, hs⟩ | h
    · rw [heq]
      exact CancelOk.mono hi (hi.passes y) hc hs
    · exact h

/-- A step that writes no lock, and of the rows only some that nobody has locked and that are
there. -/
theorem Spares.of_rows (hh : s'.holder = s.holder) (ho : s'.owner = s.owner)
    (hr : ∀ u, s'.status u = s.status u ∨ s.holder u = none ∧ s.status u ≠ none ∨ u ∉ s.used)
    (hheld : ∀ u y, s.holder u = some y → u ∈ s.used) : s.Spares s' x where
  owner w h := by rw [ho, h]
  held u h := by
    rw [hh]
    refine ⟨h, ?_⟩
    rcases hr u with hsame | ⟨hnone, -⟩ | hnew
    · exact hsame
    · simp [h] at hnone
    · exact absurd (hheld u x h) hnew
  gone u hu h := by
    rcases hr u with hsame | ⟨-, hthere⟩ | hnew
    · rw [hsame, h]
    · exact absurd h hthere
    · exact absurd hu hnew

/-- A bulk write moves rows that are there, of those it names. -/
theorem status_updateMany (s : WorkflowState) (pairs : List (TaskId × ℕ)) (a : ℕ → RowAction)
    (u : TaskId) : (s.updateMany pairs a).status u = s.status u ∨
      (∃ q ∈ pairs, q.1 = u) ∧ s.status u ≠ none := by
  refine updateMany_induction (P := fun s' => s'.status u = s.status u ∨
    (∃ q ∈ pairs, q.1 = u) ∧ s.status u ≠ none) s (.inl rfl) ?_
  rintro s' (hsame | h) q hq
  · rcases update_cases s' q.1 (a q.2) with h | ⟨r, r', hrow, -, h⟩ <;> rw [h]
    · exact .inl hsame
    · rw [status_putRow]
      split_ifs with hu
      · refine .inr ⟨⟨q, hq, hu.symm⟩, ?_⟩
        rw [← hsame, hu]
        simp [status, hrow]
      · exact .inl hsame
  · exact .inr h

/-- A step on rows that nobody has locked, or on passes. -/
theorem CancelInv.steps (hi : s.CancelInv) (hc : s.Carries s') (hh : s'.holder = s.holder)
    (ho : s'.owner = s.owner)
    (hw : ∀ w f, s.workflows w = some f → f.status = .sealed → s.owner w ≠ none →
      ∃ f', s'.workflows w = some f' ∧ f'.status = .sealed)
    (hr : ∀ u, s'.status u = s.status u ∨ s.holder u = none ∧ s.status u ≠ none ∨ u ∉ s.used)
    (hp : ∀ y, s'.passes y = s.passes y ∨ s'.CancelOk y (s'.passes y)) : s'.CancelInv := by
  refine hi.carries hc (fun w x h => ?_) (fun u x h => ?_) fun y => ?_
  · rw [ho] at h
    obtain ⟨f, hf, hst⟩ := hi.owned w x h
    exact hw w f hf hst (by simp [h])
  · rw [hh] at h
    exact hc.retains.used u (hi.heldUsed u x h)
  · rcases hp y with h | h
    · exact .inl ⟨h, .of_rows hh ho hr hi.heldUsed⟩
    · exact .inr h

theorem pass_or (hp : s'.passes = Function.update s.passes x p) (hok : s'.CancelOk x p) :
    ∀ y, s'.passes y = s.passes y ∨ s'.CancelOk y (s'.passes y) := by
  intro y
  rw [hp]
  by_cases h : y = x
  · right
    rw [h, Function.update_self]
    exact hok
  · exact .inl (Function.update_of_ne h _ _)

/-- The party reads, and nothing else changes. -/
theorem CancelInv.reads (hi : s.CancelInv) (hc : s.Carries (s.setPass x p)) (hok : s.CancelOk x p) :
    (s.setPass x p).CancelInv :=
  hi.steps hc rfl rfl (fun _ f hf hst _ => ⟨f, hf, hst⟩) (fun _ => .inl rfl) (pass_or rfl hok)

/-- The party reads the upstreams that doom, holding the workflow's row. -/
theorem CancelInv.readCancellable (hi : s.CancelInv) (hr : s.RetireInv) {f : OxpullWorkflow}
    {found gone : List TaskId} (hf : s.workflows w = some f) (hst : f.status = .sealed)
    (ho : s.owner w = none)
    (hfound : ∀ u ∈ found, u ∈ (s.cancellableEdges w).map (·.upstream))
    (hgone : ∀ u ∈ gone, u ∈ (s.cancellableEdges w).map (·.upstream) ∧ s.status u = none)
    (hc : s.Carries { s.setPass x (.cancelling w found gone []) with
      owner := Function.update s.owner w (some x) }) :
    CancelInv { s.setPass x (.cancelling w found gone []) with
      owner := Function.update s.owner w (some x) } := by
  have hhome : ∀ u ∈ (s.cancellableEdges w).map (·.upstream), s.Home w u := by
    intro u hu
    obtain ⟨e, he, rfl⟩ := List.mem_map.mp hu
    obtain ⟨hmem, hkeep⟩ := List.mem_filter.mp he
    rw [decide_eq_true_eq] at hkeep
    exact ⟨hr.upUsed e hmem, fun n hn ht => (hr.home e hmem n hn ht).trans hkeep.1⟩
  refine hi.carries hc (fun w' y h => ?_) hi.heldUsed fun y => ?_
  · by_cases hw : w' = w
    · exact ⟨f, hw ▸ hf, hst⟩
    · simp only [Function.update_of_ne hw] at h
      exact hi.owned w' y h
  · by_cases hy : y = x
    · right
      subst hy
      simp only [setPass, Function.update_self]
      exact ⟨Function.update_self .., fun u hu => hhome u (hfound u hu),
        fun u hu => ⟨hhome u (hgone u hu).1, (hgone u hu).2⟩, by simp⟩
    · refine .inl ⟨Function.update_of_ne hy _ _, fun w' h => ?_, fun u h => ⟨h, rfl⟩,
        fun _ _ h => h⟩
      have hne : w' ≠ w := by
        rintro rfl
        simp [ho] at h
      exact (Function.update_of_ne hne _ _).trans h

/-- The party locks a row that it found, and keeps it among the doomed if it is still dead. -/
theorem CancelInv.lock (hi : s.CancelInv) (hl : s.LastInv) (hr : s.RecordInv)
    {found gone doomed : List TaskId} {st : Status}
    (hok : s.CancelOk x (.cancelling w (u :: found) gone doomed)) (hst : s.status u = some st)
    (hfree : s.Free x u)
    (hc : s.Carries { s.setPass x (.cancelling w found gone
        (if st.Dead then doomed ++ [u] else doomed)) with
      holder := Function.update s.holder u (some x) }) :
    CancelInv { s.setPass x (.cancelling w found gone
        (if st.Dead then doomed ++ [u] else doomed)) with
      holder := Function.update s.holder u (some x) } := by
  obtain ⟨hown, hfound, hgone, hdoomed⟩ := hok
  have hspares : ∀ y, s.Spares { s.setPass x (.cancelling w found gone
        (if st.Dead then doomed ++ [u] else doomed)) with
      holder := Function.update s.holder u (some x) } y := by
    refine fun y => ⟨fun _ h => h, fun v h => ⟨?_, rfl⟩, fun _ _ h => h⟩
    by_cases hv : v = u
    · subst hv
      rcases hfree with hnone | hmine
      · simp [hnone] at h
      · obtain rfl : x = y := Option.some.inj (hmine.symm.trans h)
        exact Function.update_self ..
    · exact (Function.update_of_ne hv _ _).trans h
  refine hi.carries hc hi.owned (fun v y h => ?_) fun y => ?_
  · by_cases hv : v = u
    · subst hv
      refine hr.rowsUsed v fun hnone => ?_
      simp [status, hnone] at hst
    · exact hi.heldUsed v y ((Function.update_of_ne hv _ _).symm.trans h)
  · by_cases hy : y = x
    · right
      subst hy
      simp only [setPass, Function.update_self]
      have hold := fun v hv => (hdoomed v hv).mono (hi.live hown) hc (hspares y)
      refine ⟨hown, fun v hv => hfound v (List.mem_cons_of_mem _ hv), hgone, fun v hv => ?_⟩
      split_ifs at hv with hdead
      · rcases List.mem_append.mp hv with hv | hv
        · exact hold v hv
        · obtain rfl := List.mem_singleton.mp hv
          refine ⟨hfound v List.mem_cons_self, fun hwon => ?_,
            .inl ⟨Function.update_self .., st, hst, hdead⟩⟩
          obtain rfl := hl.final v hwon st hst
          simp [Status.Dead] at hdead
      · exact hold v hv
    · exact .inl ⟨Function.update_of_ne hy _ _, hspares y⟩

/-- The transaction of a party ends; it wrote rows that it had locked, or nobody had. -/
theorem CancelInv.unlock (hi : s.CancelInv) (hc : s.Carries s')
    (hh : s'.holder = fun t => if s.holder t = some x then none else s.holder t)
    (ho : s'.owner = fun w => if s.owner w = some x then none else s.owner w)
    (hw : s'.workflows = s.workflows)
    (hr : ∀ u, s'.status u = s.status u ∨ s.Free x u ∧ s.status u ≠ none)
    (hp : s'.passes = Function.update s.passes x .idle) : s'.CancelInv := by
  refine hi.carries hc (fun w y h => ?_) (fun u y h => ?_) fun y => ?_
  · rw [ho] at h
    obtain ⟨-, h⟩ := Option.ite_none_left_eq_some.mp h
    rw [hw]
    exact hi.owned w y h
  · rw [hh] at h
    obtain ⟨-, h⟩ := Option.ite_none_left_eq_some.mp h
    exact hc.retains.used u (hi.heldUsed u y h)
  · by_cases hy : y = x
    · right
      rw [hp, hy, Function.update_self]
      trivial
    · have hne : some y ≠ some x := fun h => hy (Option.some.inj h)
      refine .inl ⟨by rw [hp, Function.update_of_ne hy], fun w h => ?_, fun u h => ⟨?_, ?_⟩,
        fun u hu h => ?_⟩
      · simp only [ho, h]
        exact if_neg hne
      · simp only [hh, h]
        exact if_neg hne
      · rcases hr u with hsame | ⟨hfree, -⟩
        · exact hsame
        · rcases hfree with hfree | hfree <;> rw [h] at hfree
          · cases hfree
          · exact absurd hfree hne
      · rcases hr u with hsame | ⟨-, hthere⟩
        · rw [hsame, h]
        · exact absurd h hthere

/-- The outcomes of a workflow are recorded with their rows, and a retired one is left alone. -/
def Recording (s : WorkflowState) (a : WorkflowAction) : Prop :=
  s.LeavesRetired a ∧ a.WritesPlain = false

/-- The invariants a level relies on. -/
structure GateInv (s : WorkflowState) : Prop where
  order : s.OrderInv
  record : s.RecordInv
  retire : s.RetireInv
  last : s.LastInv

theorem GateInv.step {a : WorkflowAction} (hi : s.GateInv) (hc : s.Recording a)
    (h : step s a = some s') : s'.GateInv :=
  ⟨step_order hi.order h, step_record hi.order hi.record h,
    step_retire hi.order hi.record hi.retire hc.1 h, step_last hi.order hi.record hi.last hc.2 h⟩

theorem GateInv.carries {a : WorkflowAction} (hi : s.GateInv) (hc : s.Recording a)
    (h : WorkflowState.step s a = some s') : s.Carries s' :=
  have hi' := hi.step hc h
  ⟨(step_retains hi.order hi.record hi.retire hc.1 h).1, hi'.order, hi'.record, hi'.last,
    fun _ hu => succeeded_step h hu⟩

theorem gate_of_start (h : s.Start) : s.GateInv :=
  ⟨order_of_start h, record_of_start h, retire_of_start h, last_of_start h⟩

theorem cancel_of_start (h : s.Start) : s.CancelInv := by
  obtain ⟨-, -, -, -, -, -, hh, ho, hp, -⟩ := h
  refine ⟨by simp [ho], by simp [hh], fun x => ?_⟩
  rw [hp x]
  trivial

theorem step_cancel {a : WorkflowAction} (hg : s.GateInv) (hi : s.CancelInv) (hc : s.Recording a)
    (h : step s a = some s') : s'.CancelInv := by
  have hcar := hg.carries hc h
  cases a with
  | create w =>
    obtain ⟨hnone, h⟩ := Option.ite_none_right_eq_some.mp h
    obtain rfl := Option.some.inj h
    refine hi.steps hcar rfl rfl (fun w' f hf hst _ => ?_) (fun _ => .inl rfl) fun _ => .inl rfl
    have hne : w' ≠ w := by
      rintro rfl
      simp [hnone] at hf
    exact ⟨f, (Function.update_of_ne hne _ _).trans hf, hst⟩
  | sealOnce w | complete w | stamp w =>
    simp only [step] at h
    split at h
    · next f hf =>
      obtain ⟨hst, h⟩ := Option.ite_none_right_eq_some.mp h
      obtain rfl := Option.some.inj h
      refine hi.steps hcar rfl rfl (fun w' f' hf' hst' hown => ?_) (fun _ => .inl rfl)
        fun _ => .inl rfl
      have hne : w' ≠ w := by
        rintro rfl
        obtain rfl : f = f' := Option.some.inj (hf.symm.trans hf')
        simp_all
      exact ⟨f', (Function.update_of_ne hne _ _).trans hf', hst'⟩
    · cases h
  | clear u =>
    obtain ⟨-, h⟩ := Option.ite_none_right_eq_some.mp h
    obtain rfl := Option.some.inj h
    exact hi.steps hcar rfl rfl (fun _ f hf hst _ => ⟨f, hf, hst⟩) (fun _ => .inl rfl)
      fun _ => .inl rfl
  | claim u a | row u a =>
    obtain ⟨hfree, h⟩ := Option.ite_none_right_eq_some.mp h
    obtain ⟨r', hb, rfl⟩ := Option.map_eq_some_iff.mp h
    obtain ⟨r, hrow, -⟩ := Option.bind_eq_some_iff.mp hb
    refine hi.steps hcar rfl rfl (fun _ f hf hst _ => ⟨f, hf, hst⟩) (fun v => ?_) fun _ => .inl rfl
    rw [status_putRow]
    split_ifs with hv
    · refine .inr (.inl ⟨?_, by simp [hv, status, hrow]⟩)
      rw [hv]
      tauto
    · exact .inl rfl
  | outcome u b held now ending =>
    obtain ⟨hfree, h⟩ := Option.ite_none_right_eq_some.mp h
    obtain ⟨r', hb, rfl⟩ := Option.map_eq_some_iff.mp h
    obtain ⟨r, hrow, -⟩ := Option.bind_eq_some_iff.mp hb
    have hstatus : ∀ v, (s.putRow u r').status v = s.status v ∨
        s.holder v = none ∧ s.status v ≠ none ∨ v ∉ s.used := by
      intro v
      rw [status_putRow]
      split_ifs with hv
      · exact .inr (.inl ⟨hv ▸ hfree, by simp [hv, status, hrow]⟩)
      · exact .inl rfl
    obtain ⟨nodes, edges, heq⟩ :=
      recordNodeOutcome_frame (s.putRow u r') u r'.row.status r'.row.leaseEpoch
    simp only [heq] at hcar ⊢
    split_ifs at hcar ⊢ <;>
      exact hi.steps hcar rfl rfl (fun _ f hf hst _ => ⟨f, hf, hst⟩) hstatus fun _ => .inl rfl
  | pruneTask u =>
    simp only [step] at h
    split at h
    · next st hst =>
      obtain ⟨⟨-, hfree⟩, h⟩ := Option.ite_none_right_eq_some.mp h
      obtain rfl := Option.some.inj h
      refine hi.steps hcar rfl rfl (fun _ f hf hst _ => ⟨f, hf, hst⟩) (fun v => ?_)
        fun _ => .inl rfl
      by_cases hv : v = u
      · exact .inr (.inl ⟨hv ▸ hfree, by simp [hv, hst]⟩)
      · left
        simp [status, hv]
    · cases h
  | commitAdd x task call inherited now =>
    simp only [step] at h
    split at h
    · next w name upstream won hx =>
      split at h
      · next f hf =>
        obtain ⟨⟨hopen, hnew, -⟩, h⟩ := Option.ite_none_right_eq_some.mp h
        obtain rfl := Option.some.inj h
        refine hi.steps hcar rfl rfl (fun w' f' hf' hst' _ => ?_) (fun v => ?_) (pass_or rfl trivial)
        · have hne : w' ≠ w := by
            rintro rfl
            obtain rfl : f = f' := Option.some.inj (hf.symm.trans hf')
            simp [hopen] at hst'
          exact ⟨f', (Function.update_of_ne hne _ _).trans hf', hst'⟩
        · by_cases hv : v = task
          · exact .inr (.inr (hv ▸ hnew))
          · exact .inl ((status_putRow s task v _).trans (if_neg hv))
      · cases h
    · cases h
  | releaseMany x now =>
    simp only [step] at h
    split at h
    · next pairs hx =>
      obtain ⟨hfree, h⟩ := Option.ite_none_right_eq_some.mp h
      obtain rfl := Option.some.inj h
      have hstatus := status_updateMany s pairs fun e => .release e now
      obtain ⟨rows, won, heq⟩ := updateMany_frame s pairs fun e => .release e now
      rw [heq] at hcar hstatus ⊢
      refine hi.steps hcar rfl rfl (fun _ f hf hst _ => ⟨f, hf, hst⟩) (fun v => ?_)
        (pass_or rfl trivial)
      rcases hstatus v with hsame | ⟨⟨q, hq, rfl⟩, hthere⟩
      · exact .inl hsame
      · exact .inr (.inl ⟨hfree q hq, hthere⟩)
    · cases h
  | readCancellable x w =>
    simp only [step] at h
    split at h
    · next f hx hf =>
      obtain ⟨⟨hst, hown⟩, h⟩ := Option.ite_none_right_eq_some.mp h
      obtain rfl := Option.some.inj h
      refine hi.readCancellable hg.retire hf hst hown (fun u hu => ?_) (fun u hu => ?_) hcar
      · exact List.mem_dedup.mp (List.mem_filter.mp hu).1
      · obtain ⟨hmem, hgone⟩ := List.mem_filter.mp hu
        exact ⟨List.mem_dedup.mp hmem, by simpa using hgone⟩
    · cases h
  | lockDoomed x =>
    simp only [step] at h
    split at h
    · next w u found gone doomed hx =>
      have hok : s.CancelOk x (.cancelling w (u :: found) gone doomed) := hx ▸ hi.passes x
      split at h
      · obtain rfl := Option.some.inj h
        exact hi.reads hcar ⟨hok.1, fun v hv => hok.2.1 v (List.mem_cons_of_mem _ hv), hok.2.2⟩
      · next st hst =>
        obtain ⟨hfree, h⟩ := Option.ite_none_right_eq_some.mp h
        obtain rfl := Option.some.inj h
        exact hi.lock hg.last hg.record hok hst hfree hcar
    · cases h
  | readGone x =>
    simp only [step] at h
    split at h
    · next w gone doomed hx =>
      obtain rfl := Option.some.inj h
      have hok : s.CancelOk x (.cancelling w [] gone doomed) := hx ▸ hi.passes x
      obtain ⟨hown, -, hgone, hdoomed⟩ := hok
      refine hi.reads hcar ⟨hown, fun u hu => ?_⟩
      rcases List.mem_append.mp hu with hu | hu
      · exact hdoomed u hu
      · obtain ⟨hu, hdead⟩ := List.mem_filter.mp hu
        rw [decide_eq_true_eq] at hdead
        obtain ⟨st, hrec, hd⟩ := hdead
        refine ⟨(hgone u hu).1, fun hwon => ?_, .inr ⟨(hgone u hu).2, st, hrec, hd⟩⟩
        obtain ⟨n, hn, rfl, hout⟩ := recorded_mem hrec
        have hsucc := hg.last.recorded n hn hwon
        obtain rfl : st = .successful := Option.some.inj (hout.symm.trans hsucc)
        simp [Status.Dead] at hd
    · cases h
  | readCone x =>
    simp only [step] at h
    split at h
    · next w doomed hx =>
      obtain rfl := Option.some.inj h
      have hok : s.CancelOk x (.doomed w doomed) := hx ▸ hi.passes x
      refine hi.reads hcar ⟨hok.1, hok.2, fun t ht => ?_⟩
      obtain ⟨e, he, rfl⟩ := List.mem_map.mp (List.mem_dedup.mp ht)
      obtain ⟨hmem, hkeep⟩ := List.mem_filter.mp he
      rw [decide_eq_true_eq] at hkeep
      exact ⟨e, hmem, hkeep.1, hkeep.2.2, rfl, hkeep.2.1⟩
    · cases h
  | readPairs x =>
    simp only [step] at h
    split at h
    · next w doomed cone hx =>
      obtain rfl := Option.some.inj h
      have hok : s.CancelOk x (.coned w doomed cone) := hx ▸ hi.passes x
      refine hi.reads hcar ⟨hok.1, hok.2.1, fun q hq => ?_⟩
      obtain ⟨t, ht, hsome⟩ := List.mem_filterMap.mp hq
      split at hsome
      · obtain ⟨-, hsome⟩ := Option.ite_none_right_eq_some.mp hsome
        obtain rfl := Option.some.inj hsome
        exact hok.2.2 t ht
      · cases hsome
    · cases h
  | cancelMany x now =>
    simp only [step] at h
    split at h
    · next w doomed pairs hx =>
      obtain ⟨hfree, h⟩ := Option.ite_none_right_eq_some.mp h
      obtain rfl := Option.some.inj h
      have hstatus := status_updateMany s pairs fun e => .cancelMany e now
      obtain ⟨rows, won, heq⟩ := updateMany_frame s pairs fun e => .cancelMany e now
      simp only [heq] at hcar hstatus ⊢
      obtain ⟨nodes, hframe⟩ :=
        recordDiscarded_frame { s with rows := rows, succeeded := won } pairs
      simp only [hframe] at hcar ⊢
      have hrows : ∀ v, _ := fun v => (hstatus v).imp_right fun hread => by
        obtain ⟨⟨q, hq, hqv⟩, hthere⟩ := hread
        exact (⟨hqv ▸ hfree q hq, hthere⟩ : s.Free x v ∧ s.status v ≠ none)
      split_ifs at hcar ⊢ <;> exact hi.unlock hcar rfl rfl rfl hrows rfl
    · cases h
  | abort x =>
    obtain rfl := Option.some.inj h
    exact hi.unlock hcar rfl rfl rfl (fun _ => .inl rfl) rfl
  | markProven x locked | commitRepairs x | writeRecords x locked =>
    simp only [step] at h
    split at h
    · obtain rfl := Option.some.inj h
      exact hi.steps hcar rfl rfl (fun _ f hf hst _ => ⟨f, hf, hst⟩) (fun _ => .inl rfl)
        (pass_or (p := .idle) rfl trivial)
    · cases h
  | retireChunk x =>
    simp only [step] at h
    split at h
    · obtain ⟨-, h⟩ := Option.ite_none_right_eq_some.mp h
      obtain rfl := Option.some.inj h
      exact hi.steps hcar rfl rfl (fun _ f hf hst _ => ⟨f, hf, hst⟩) (fun _ => .inl rfl)
        (pass_or rfl trivial)
    · cases h
  | _ =>
    simp only [step] at h
    repeat' split at h
    all_goals cases h
    all_goals exact hi.reads hcar trivial

end WorkflowState

end DjangoOx
