import DjangoOx.Workflow.DeadRows
import DjangoOx.Workflow.Handshake

/-! No release is lost. Whoever leaves a waiting node with nothing before it that has not succeeded
still owes its release, whatever the order of the statements. -/
namespace DjangoOx

open Machine

namespace WorkflowState

theorem addedRow_ready {call : Call} {inherited : ℕ} {upstream won : List TaskId}
    (h : upstream ⊆ won) : (addedRow call inherited now upstream won).status = .ready := by
  unfold addedRow
  by_cases hnil : upstream = []
  · rw [if_pos hnil]
    rfl
  · simp only [if_neg hnil, if_pos h]
    rfl

end WorkflowState

namespace ReleasingState

variable {s s' : ReleasingState} {a : ReleasingAction} {x y : ℕ} {t u d : TaskId} {r : RowState}
  {stage : OutcomeStage}

/-- Once a success commits, every edge out of its task is marked. -/
theorem Inv.out_marked {replied : Bool} (hi : s.Inv) (hm : Moves s s' (.commitOutcome x replied))
    (hcall : s.calls x = .writing t r stage) (hwon : r.row.status = .successful)
    {e' : OxpullWorkflowEdge} (he' : e' ∈ s'.base.edges) (hup : e'.upstream = t) :
    e'.satisfied = true := by
  cases hm with
  | advance _ _ _ _ _ _ _ _ hadv => cases hadv
  | commitOutcome _ _ t₁ r₁ stage₁ hcall₁ hdone hs =>
    obtain ⟨rfl, rfl, rfl⟩ : t₁ = t ∧ r₁ = r ∧ stage₁ = stage := by
      simpa using hcall₁.symm.trans hcall
    obtain ⟨-, hstage⟩ := hi.outcome hcall hdone
    subst hs
    cases stage₁ with
    | written => exact hstage.elim
    | unrecorded => exact hstage.elim
    | recorded => exact absurd hwon hstage
    | marked pairs =>
      obtain ⟨-, hread⟩ := hstage
      change e' ∈ markSatisfied s.base.edges (pairs.map (·.1)) at he'
      rw [hread.marks] at he'
      obtain ⟨e, he, rfl⟩ := List.mem_map.mp he'
      by_cases hmem : e.upstream ∈ [t₁]
      · simp only [if_pos hmem]
      · simp only [if_neg hmem] at hup
        exact absurd (List.mem_singleton.mpr hup) hmem

/-- An unmarked edge whose upstream has succeeded was so before the step, or is of a node that the
step adds. -/
theorem Inv.unmarked (hi : s.Inv) (hm : Moves s s' a) {e' : OxpullWorkflowEdge}
    (he' : e' ∈ s'.base.edges) (hopen : e'.satisfied = false)
    (hwon : s'.base.SucceededOrRecorded e'.upstream) :
    (∃ e ∈ s.base.edges, e'.pk = e.pk ∧ e'.upstream = e.upstream ∧
      e'.downstream = e.downstream ∧ e.satisfied = false ∧
      s.base.SucceededOrRecorded e.upstream) ∨
    ∃ x, a.Adds x e'.downstream ∧ s.base.declared e'.downstream = none ∧
      (s.base.passes x).released = false := by
  have hf := hi.follows hm
  rcases hf.edges.edges e' he' with ⟨e, he, hpk, hup, hdown, hsat⟩ | ⟨x, hadd, hnew, -, -, -, hrel⟩
  · left
    refine ⟨e, he, hpk, hup, hdown, ?_, ?_⟩
    · cases hsat' : e.satisfied with
      | false => rfl
      | true =>
        rw [hsat hsat'] at hopen
        cases hopen
    · rcases hf.before hi.tables hwon with hold | ⟨x, replied, r, stage, rfl, hcall, hst⟩
      · exact hup ▸ hold
      · rw [hi.out_marked hm hcall hst he' rfl] at hopen
        cases hopen
  · right
    refine ⟨x, hadd, hnew, ?_⟩
    cases hreleased : (s.base.passes x).released with
    | false => rfl
    | true =>
      rw [hrel hreleased] at hopen
      cases hopen

/-- Who adds a node that is not released at once owes its re-check. -/
theorem Moves.added (hm : Moves s s' a) (hadd : a.Adds x d)
    (hrel : (s.base.passes x).released = false) : s'.Marking x d ∨ d ∈ s'.dropped := by
  obtain ⟨call, inherited, now, replied, rfl⟩ := hadd
  cases hm with
  | advance _ _ _ _ _ _ _ _ hadv => cases hadv
  | commitAdd _ w _ _ _ _ _ base hcall hb hs =>
    subst hs
    simp only [hrel]
    cases replied with
    | false => exact .inr List.mem_cons_self
    | true =>
      left
      refine ⟨Function.update_self .., ?_⟩
      have hpass : base.passes x = .idle := by
        simp only [WorkflowState.step] at hb
        split at hb
        · split at hb
          · obtain ⟨-, hb⟩ := Option.ite_none_right_eq_some.mp hb
            obtain rfl := Option.some.inj hb
            exact Function.update_self ..
          · cases hb
        · cases hb
      show WorkflowState.WillMark _ d (base.passes x)
      rw [hpass]
      trivial

theorem Inv.marking_kept (hi : s.Inv) (hm : Moves s s' a) (h : s.Marking x d)
    (hx : a.caller ≠ some x) : s'.Marking x d := by
  obtain ⟨hcall, hwill⟩ := h
  have hf := hi.follows hm
  have hok : s.CallOk x (.rechecking d) := hcall ▸ hi.calls x
  obtain ⟨-, hl⟩ := hm.leaves hx (by rw [hcall]; rfl)
  refine ⟨(hm.call hx).trans hcall, ?_⟩
  rw [hl.pass]
  cases hp : s.base.passes x with
  | idle => trivial
  | proving edges unread gone proven =>
    rw [hp] at hwill
    intro e' he' hdown hopen hwon
    rcases hi.unmarked hm he' hopen hwon with
      ⟨e, he, hpk, hup, hdown', hopen', hwon'⟩ | ⟨y, -, hnew, -⟩
    · obtain ⟨hmem, hseen⟩ := hwill e he (hdown'.symm.trans hdown) hopen' hwon'
      have hfields : WorkflowState.edgeFields e' = WorkflowState.edgeFields e := by
        simp [WorkflowState.edgeFields, hpk, hup, hdown']
      refine ⟨hfields ▸ hmem, ?_⟩
      rw [hup]
      refine hseen.imp_right (Or.imp_left fun ⟨hgone, hst⟩ => ⟨hgone, ?_⟩)
      obtain ⟨c, hturn⟩ := hf.turn
      have hused := hi.tables.last.wonUsed _ (hwon'.succeeded hi.tables.order)
      have hrow : s.base.rows e.upstream = none := by simpa [WorkflowState.status] using hst
      have hrow' := WorkflowState.none_of_turn hrow hused hturn
      simp [WorkflowState.status, hrow']
    · exact absurd (hdown ▸ hnew) hok
  | _ =>
    rw [hp] at hwill
    exact hwill

/-- A re-check marks every edge whose upstream had succeeded, or hands the node on. -/
theorem Inv.marking_own (hi : s.Inv) (hm : Moves s s' a) (h : s.Marking x d)
    (hx : a.caller = some x) : s'.Marked d ∨ s'.Marking x d ∨ d ∈ s'.dropped := by
  obtain ⟨hcall, hwill⟩ := h
  have hself : ∀ call, (s.setCall x call).calls x = call := fun _ => Function.update_self ..
  have hother : ∀ {call}, s.calls x = call → call = .rechecking d := fun hc => hc.symm.trans hcall
  cases hm with
  | other b base hbeside hidle hb hs => cases hx
  | advance y a b base before call hb hbefore hadv hs =>
    obtain ⟨hcaller, -, -⟩ := hadv.party
    obtain rfl : y = x := Option.some.inj (hcaller.symm.trans hx)
    subst hs
    obtain rfl := hother hbefore
    cases hadv with
    | recheck t =>
      simp only [WorkflowState.step] at hb
      split at hb
      · obtain rfl := Option.some.inj hb
        refine .inr (.inl ⟨hself _, ?_⟩)
        show WorkflowState.WillMark _ d (Function.update s.base.passes y _ y)
        rw [Function.update_self]
        intro e he hdown hopen hwon
        have hmem : WorkflowState.edgeFields e ∈ (s.base.edges.filter fun e =>
            e.downstream ∈ [d] ∧ e.satisfied = false).map WorkflowState.edgeFields := by
          refine List.mem_map_of_mem (List.mem_filter.mpr ⟨he, ?_⟩)
          simp [hdown, hopen]
        refine ⟨hmem, .inl (List.mem_dedup.mpr ?_)⟩
        exact List.mem_map_of_mem (f := fun q : ℕ × TaskId × TaskId => q.2.1) hmem
      · cases hb
    | proveRows t size =>
      simp only [WorkflowState.step] at hb
      split at hb
      · next edges unread gone proven hp =>
        obtain rfl := Option.some.inj hb
        rw [hp] at hwill
        refine .inr (.inl ⟨hself _, ?_⟩)
        show WorkflowState.WillMark _ d (Function.update s.base.passes y _ y)
        rw [Function.update_self]
        intro e he hdown hopen hwon
        obtain ⟨hmem, hseen⟩ := hwill e he hdown hopen hwon
        refine ⟨hmem, ?_⟩
        rcases hseen with hun | ⟨hgone, hst⟩ | hproven
        · -- a row read now is SUCCESSFUL, or gone
          rw [← List.take_append_drop size unread] at hun
          rcases List.mem_append.mp hun with htake | hdrop
          · rcases hwon with hst | ⟨hst, -⟩
            · refine .inr (.inr (List.mem_append_right _ (List.mem_filter.mpr ⟨htake, ?_⟩)))
              exact decide_eq_true hst
            · refine .inr (.inl ⟨List.mem_append_right _ (List.mem_filter.mpr ⟨htake, ?_⟩), hst⟩)
              exact decide_eq_true hst
          · exact .inl hdrop
        · exact .inr (.inl ⟨List.mem_append_left _ hgone, hst⟩)
        · exact .inr (.inr (List.mem_append_left _ hproven))
      · cases hb
    | proveRecords t size =>
      simp only [WorkflowState.step] at hb
      split at hb
      · next edges gone proven hp =>
        obtain rfl := Option.some.inj hb
        rw [hp] at hwill
        refine .inr (.inl ⟨hself _, ?_⟩)
        show WorkflowState.WillMark _ d (Function.update s.base.passes y _ y)
        rw [Function.update_self]
        intro e he hdown hopen hwon
        obtain ⟨hmem, hseen⟩ := hwill e he hdown hopen hwon
        refine ⟨hmem, ?_⟩
        rcases hseen with hun | ⟨hgone, hst⟩ | hproven
        · cases hun
        · rw [← List.take_append_drop size gone] at hgone
          rcases List.mem_append.mp hgone with htake | hdrop
          · -- the row is gone, so it is the record that says SUCCESSFUL
            have hrec : s.base.recorded e.upstream = some .successful := by
              rcases hwon with hst' | ⟨-, hrec⟩
              · change s.base.status e.upstream = _ at hst'
                rw [show s.base.status e.upstream = none from hst] at hst'
                cases hst'
              · exact hrec
            refine .inr (.inr (List.mem_append_right _ (List.mem_filter.mpr ⟨htake, ?_⟩)))
            simpa using hrec
          · exact .inr (.inl ⟨hdrop, hst⟩)
        · exact .inr (.inr (List.mem_append_left _ hproven))
      · cases hb
  | markProven y locked t base hbefore hb hs =>
    cases hx
    obtain rfl : t = d := by simpa using hother hbefore
    have hf := hi.follows (.markProven x locked t base hbefore hb hs)
    subst hs
    by_cases hall : (s.base.passes x).wanted ⊆ locked
    · left
      intro e' he' hdown hopen hwon
      have hm' := Moves.markProven x locked t base hbefore hb
        (rfl : { s.setCall x (.owing [t]) with
          base := base
          dropped := (if (s.base.passes x).wanted ⊆ locked then [] else [t]) ++ s.dropped } = _)
      rcases hi.unmarked hm' he' hopen hwon with
        ⟨e, he, hpk, hup, hdown', hopen', hwon'⟩ | ⟨z, ⟨_, _, _, _, hadd⟩, -⟩
      · simp only [WorkflowState.step] at hb
        split at hb
        · next edges proven hp =>
          obtain rfl := Option.some.inj hb
          rw [hp] at hwill hall
          obtain ⟨hmem, hseen⟩ := hwill e he (hdown'.symm.trans hdown) hopen' hwon'
          have hproven : e.upstream ∈ proven := by
            rcases hseen with hun | ⟨hgone, -⟩ | hproven
            · cases hun
            · cases hgone
            · exact hproven
          have hlocked : e.pk ∈ locked := by
            refine hall (List.mem_map.mpr ⟨WorkflowState.edgeFields e, ?_, rfl⟩)
            refine List.mem_filter.mpr ⟨hmem, ?_⟩
            exact decide_eq_true hproven
          have hwanted : e'.pk ∈
              (edges.filter fun q => q.2.1 ∈ proven ∧ q.1 ∈ locked).map (·.1) := by
            refine List.mem_map.mpr ⟨WorkflowState.edgeFields e, ?_, hpk.symm⟩
            refine List.mem_filter.mpr ⟨hmem, ?_⟩
            simp [WorkflowState.edgeFields, hproven, hlocked]
          obtain ⟨e₀, -, heq⟩ := mem_markSatisfied.mp he'
          have hpk₀ : e'.pk = e₀.pk := by
            rw [heq]
            split_ifs <;> rfl
          rw [heq, if_pos (hpk₀ ▸ hwanted)] at hopen
          cases hopen
        · cases hb
      · cases hadd
    · right
      right
      simp only [if_neg hall]
      exact List.mem_cons_self
  | fail y base hb hs =>
    cases hx
    subst hs
    right
    right
    simp only [hcall]
    exact List.mem_cons_self
  | take _ _ _ _ hbefore _ _ | lockUpstream _ _ _ _ hbefore _ _
  | commitAdd _ _ _ _ _ _ _ _ hbefore _ _ | write _ _ _ _ _ _ _ _ hbefore _ _ _ _ _ _
  | lockNode _ _ _ hbefore _ _ | noNode _ _ _ hbefore _ _ | readEdges _ _ _ hbefore _ _
  | commitOutcome _ _ _ _ _ hbefore _ _ | takeChunk _ _ _ hbefore _
  | giveUp _ _ _ _ _ hbefore _ _ _ | finish _ hbefore _ =>
    cases hx
    cases hother hbefore

theorem Inv.marks_step (hi : s.Inv) (hm : Moves s s' a) (d : TaskId) :
    s'.Marked d ∨ (∃ x, s'.Marking x d) ∨ d ∈ s'.dropped := by
  rcases hi.marks d with hmarked | ⟨x, hx⟩ | hdrop
  · by_cases hmarked' : s'.Marked d
    · exact .inl hmarked'
    · right
      unfold Marked at hmarked'
      push Not at hmarked'
      obtain ⟨e', he', rfl, hopen, hwon⟩ := hmarked'
      rcases hi.unmarked hm he' hopen hwon with
        ⟨e, he, -, -, hdown, hopen', hwon'⟩ | ⟨y, hadd, -, hrel⟩
      · exact absurd hwon' (hmarked e he hdown.symm hopen')
      · exact (hm.added hadd hrel).imp_left fun h => ⟨y, h⟩
  · by_cases hown : a.caller = some x
    · rcases hi.marking_own hm hx hown with h | h | h
      · exact .inl h
      · exact .inr (.inl ⟨x, h⟩)
      · exact .inr (.inr h)
    · exact .inr (.inl ⟨x, hi.marking_kept hm hx hown⟩)
  · exact .inr (.inr (hm.dropped d hdrop))

/-- Who adds a node that waits after the COMMIT owes its re-check. -/
theorem Moves.added_waiting (hm : Moves s s' a) (hadd : a.Adds x d)
    (hw : s'.base.status d = some .waiting) : s'.Marking x d ∨ d ∈ s'.dropped := by
  refine hm.added hadd ?_
  obtain ⟨call, inherited, now, replied, rfl⟩ := hadd
  cases hm with
  | advance _ _ _ _ _ _ _ _ hadv => cases hadv
  | commitAdd _ w _ _ _ _ _ base hcall hb hs =>
    subst hs
    by_contra hrel
    simp only [WorkflowState.step] at hb
    split at hb
    · next w' name upstream won hp =>
      have hsub : upstream ⊆ won := by
        rw [hp] at hrel
        simpa [WorkflowPass.released] using hrel
      split at hb
      · obtain ⟨-, hb⟩ := Option.ite_none_right_eq_some.mp hb
        obtain rfl := Option.some.inj hb
        have hrow := WorkflowState.status_putRow s.base d d
          ⟨WorkflowState.addedRow call inherited now upstream won, [], [], [], []⟩
        rw [if_pos rfl, WorkflowState.addedRow_ready hsub] at hrow
        have hready : some Status.ready = some Status.waiting := hrow.symm.trans hw
        cases hready
      · cases hb
    · cases hb

theorem Inv.releasing_kept (hi : s.Inv) (hm : Moves s s' a) (h : s.Releasing x d)
    (hx : a.caller ≠ some x) (hused : d ∈ s.base.used) (hw : s'.base.status d = some .waiting) :
    s'.Releasing x d := by
  have hbusy : (s.calls x).isIdle = false := by
    unfold Releasing at h
    cases hcall : s.calls x with
    | idle =>
      rw [hcall] at h
      exact h.elim
    | _ => rfl
  obtain ⟨-, hl⟩ := hm.leaves hx hbusy
  unfold Releasing at h ⊢
  rw [hm.call hx, hl.pass]
  cases hcall : s.calls x with
  | releasing left chunk i =>
    rw [hcall] at h
    refine h.imp_right fun ⟨hmem, hwill⟩ => ⟨hmem, ?_⟩
    cases hp : s.base.passes x with
    | paired pairs =>
      rw [hp] at hwill
      obtain ⟨e, hpair, hrow⟩ := hwill
      refine ⟨e, hpair, ?_⟩
      obtain ⟨c, hturn⟩ := (hi.follows hm).turn
      cases hturn.rows d with
      | same hsame => exact (WorkflowState.row_of_rows hsame).trans hrow
      | moved r r' hr hr' _ _ hwaits =>
        have hst' : r'.row.status = .waiting := by simpa [WorkflowState.status, hr'] using hw
        obtain ⟨hst, hepoch⟩ := hwaits hst'
        have hold : (r.row.status, r.row.leaseEpoch) = (.waiting, e) := by
          simpa [WorkflowState.row, hr] using hrow
        simp [WorkflowState.row, hr', hst', hepoch, (Prod.mk.inj hold).2]
      | gone hnone => simp [WorkflowState.status, hnone] at hw
      | born hnew => exact absurd hused hnew
    | _ =>
      rw [hp] at hwill
      exact hwill
  | _ =>
    rw [hcall] at h
    exact h

theorem Releasing.owed (h : s.Releasing x d) : d ∈ (s.calls x).owed := by
  unfold Releasing at h
  cases hcall : s.calls x with
  | rechecking t =>
    rw [hcall] at h
    exact List.mem_singleton.mpr h.symm
  | owing left =>
    rw [hcall] at h
    exact h
  | releasing left chunk i =>
    rw [hcall] at h
    rcases h with hleft | ⟨hmem, -⟩
    · exact List.mem_append_right _ hleft
    · exact List.mem_append_left _ hmem
  | _ =>
    rw [hcall] at h
    exact h.elim

theorem releasing_of_call {call : ReleasingCall}
    (h : match call with
      | .rechecking t => t = d
      | .owing left => d ∈ left
      | .releasing left chunk _ => d ∈ left ∨ d ∈ chunk ∧ s.base.WillRelease d (s.base.passes x)
      | _ => False) (hcall : s.calls x = call) : s.Releasing x d := by
  unfold Releasing
  rwa [hcall]

/-- A call releases the open nodes it is to release, or gives them up. -/
theorem Inv.releasing_own (hi : s.Inv) (hm : Moves s s' a) (h : s.Releasing x d)
    (hx : a.caller = some x) (hopen : s'.base.Open d) (hw : s.base.status d = some .waiting)
    (hw' : s'.base.status d = some .waiting) : s'.Releasing x d ∨ d ∈ s'.dropped := by
  have hself : ∀ call, (s.setCall x call).calls x = call := fun _ => Function.update_self ..
  have hok := hi.calls x
  have howed := h.owed
  unfold Releasing at h
  cases hm with
  | other b base hbeside hidle hb hs => cases hx
  | advance y a b base before call hb hcall hadv hs =>
    obtain ⟨hcaller, -, -⟩ := hadv.party
    obtain rfl : y = x := Option.some.inj (hcaller.symm.trans hx)
    subst hs
    rw [hcall] at h
    left
    refine releasing_of_call ?_ (hself call)
    cases hadv with
    | resolve w name wanted => exact h.elim
    | readSucceeded w size => exact h.elim
    | recheck t | proveRows t size | proveRecords t size => exact h
    | beginChunk left chunk i =>
      simp only [WorkflowState.step] at hb
      split at hb
      · obtain ⟨-, hb⟩ := Option.ite_none_right_eq_some.mp hb
        obtain rfl := Option.some.inj hb
        rcases h with hleft | ⟨hmem, -⟩
        · exact .inl hleft
        · refine .inr ⟨hmem, ?_⟩
          show WorkflowState.WillRelease _ d (Function.update s.base.passes y _ y)
          rw [Function.update_self]
          exact hmem
      · cases hb
    | readHeld left chunk i =>
      simp only [WorkflowState.step] at hb
      split at hb
      · next ids hp =>
        obtain rfl := Option.some.inj hb
        rcases h with hleft | ⟨hmem, hwill⟩
        · exact .inl hleft
        · refine .inr ⟨hmem, ?_⟩
          rw [hp] at hwill
          show WorkflowState.WillRelease _ d (Function.update s.base.passes y _ y)
          rw [Function.update_self]
          exact List.mem_filter.mpr ⟨hwill, decide_eq_true hopen⟩
      · cases hb
    | readWaiting left chunk i =>
      simp only [WorkflowState.step] at hb
      split at hb
      · next free hp =>
        obtain rfl := Option.some.inj hb
        rcases h with hleft | ⟨hmem, hwill⟩
        · exact .inl hleft
        · refine .inr ⟨hmem, ?_⟩
          rw [hp] at hwill
          show WorkflowState.WillRelease _ d (Function.update s.base.passes y _ y)
          rw [Function.update_self]
          obtain ⟨r, hr, hst⟩ := Option.map_eq_some_iff.mp hw
          have hrow : s.base.row d = some (.waiting, r.row.leaseEpoch) := by
            simp [WorkflowState.row, hr, hst]
          refine ⟨r.row.leaseEpoch, List.mem_filterMap.mpr ⟨d, hwill, ?_⟩, hrow⟩
          simp [hrow]
      · cases hb
    | releaseMany left chunk i now =>
      rcases h with hleft | ⟨-, hwill⟩
      · exact hleft
      · -- the row moves out of WAITING
        simp only [WorkflowState.step] at hb
        split at hb
        · next pairs hp =>
          obtain ⟨-, hb⟩ := Option.ite_none_right_eq_some.mp hb
          obtain rfl := Option.some.inj hb
          rw [hp] at hwill
          obtain ⟨e, hpair, hrow⟩ := hwill
          exact absurd hw' (WorkflowState.release_of_mem hpair hrow now)
        · cases hb
    | conflict left chunk i =>
      obtain rfl := Option.some.inj hb
      rcases h with hleft | ⟨hmem, -⟩
      · exact .inl hleft
      · refine .inr ⟨hmem, ?_⟩
        show WorkflowState.WillRelease _ d (Function.update s.base.passes y _ y)
        rw [Function.update_self]
        trivial
  | markProven y locked t base hcall hb hs =>
    cases hx
    subst hs
    rw [hcall] at h
    left
    refine releasing_of_call ?_ (hself _)
    exact List.mem_singleton.mpr h.symm
  | takeChunk y size left hcall hs =>
    cases hx
    subst hs
    rw [hcall] at h hok
    left
    unfold Releasing
    rw [hself]
    have hmem : d ∈ left.take size ++ left.drop size := by rwa [List.take_append_drop]
    rcases List.mem_append.mp hmem with htake | hdrop
    · refine .inr ⟨htake, ?_⟩
      show s.base.WillRelease d (s.base.passes x)
      rw [show s.base.passes x = .idle from hok]
      trivial
    · exact .inl hdrop
  | giveUp y left chunk i base hcall hlast hb hs =>
    cases hx
    subst hs
    rw [hcall] at h
    rcases h with hleft | ⟨hmem, -⟩
    · left
      refine releasing_of_call ?_ (hself _)
      exact hleft
    · exact .inr (List.mem_append_left _ hmem)
  | finish y hcall hs =>
    cases hx
    rw [hcall] at h
    cases h
  | fail y base hb hs =>
    cases hx
    subst hs
    exact .inr (List.mem_append_left _ howed)
  | take _ _ _ _ hcall _ _ | lockUpstream _ _ _ _ hcall _ _
  | commitAdd _ _ _ _ _ _ _ _ hcall _ _ | write _ _ _ _ _ _ _ _ hcall _ _ _ _ _ _
  | lockNode _ _ _ hcall _ _ | noNode _ _ _ hcall _ _ | readEdges _ _ _ hcall _ _
  | commitOutcome _ _ _ _ _ hcall _ _ =>
    cases hx
    rw [hcall] at h
    exact h.elim

/-- A node whose last upstream succeeds is among those the outcome goes on to release. -/
theorem Inv.released_by {replied : Bool} {ds : List TaskId} (hi : s.Inv)
    (hm : Moves s s' (.commitOutcome x replied)) (hcall : s.calls x = .writing t r stage)
    (hwon : r.row.status = .successful) (hd : s.base.declared d = some ds) (ht : t ∈ ds)
    (hw : s.base.status d = some .waiting) : s'.Releasing x d ∨ d ∈ s'.dropped := by
  cases hm with
  | advance _ _ _ _ _ _ _ _ hadv => cases hadv
  | commitOutcome _ _ t₁ r₁ stage₁ hcall₁ hdone hs =>
    obtain ⟨rfl, rfl, rfl⟩ : t₁ = t ∧ r₁ = r ∧ stage₁ = stage := by
      simpa using hcall₁.symm.trans hcall
    obtain ⟨hwritten, hstage⟩ := hi.outcome hcall hdone
    subst hs
    cases stage₁ with
    | written => exact hstage.elim
    | unrecorded => exact hstage.elim
    | recorded => exact absurd hwon hstage
    | marked pairs =>
      obtain ⟨-, hread⟩ := hstage
      obtain ⟨e, he, hup, hdown⟩ := hi.tables.order.gates d ds .waiting hd hw
        (by simp [Status.Retirable]) t₁ ht
      -- the task had not succeeded before, so nobody has marked the edge
      have hopen : e.satisfied = false := by
        cases hsat : e.satisfied with
        | false => rfl
        | true =>
          obtain ⟨r₀, b, held, now, ending, hrow, hstep⟩ := hwritten.step
          have hst : s.base.status t₁ = some r₀.row.status := by
            simp [WorkflowState.status, hrow]
          have hsucc := hi.tables.order.marks e he hsat
          have hfinal := hi.tables.last.final t₁ (hup ▸ hsucc) _ hst
          have hwritable := (RowState.step_moves hstep).1
          simp [hfinal, Status.Writable] at hwritable
      have hpair : (e.pk, d) ∈ pairs := hdown ▸ hread.all e he hup hopen
      have hmem : d ∈ (OutcomeStage.marked pairs).downstream :=
        List.mem_dedup.mpr (List.mem_map.mpr ⟨(e.pk, d), hpair, rfl⟩)
      cases replied with
      | false => exact .inr (List.mem_append_left _ hmem)
      | true =>
        left
        unfold Releasing
        have hcalls : (s.commit x (s.base.withOutcome t₁ r₁ (.marked pairs))
            (.owing (OutcomeStage.marked pairs).downstream) true).calls x =
            .owing (OutcomeStage.marked pairs).downstream := Function.update_self ..
        rw [hcalls]
        exact hmem

/-- A node that is due and open is owed its release, or that it be marked open. -/
theorem Inv.owed (hi : s.Inv) (h : s.Due d) : (∃ x, s.Releasing x d) ∨ d ∈ s.dropped := by
  by_cases hopen : s.base.Open d
  · exact hi.due d h hopen
  · obtain ⟨-, ds, hd, hall⟩ := h
    unfold WorkflowState.Open at hopen
    push Not at hopen
    obtain ⟨e, he, rfl, hsat⟩ := hopen
    obtain ⟨ds', hd', hup⟩ := hi.tables.declares e he
    obtain rfl := Option.some.inj (hd.symm.trans hd')
    rcases hi.marks e.downstream with hmarked | ⟨x, hcall, -⟩ | hdrop
    · exact absurd (hall _ hup) (hmarked e he rfl (by simpa using hsat))
    · left
      refine ⟨x, ?_⟩
      unfold Releasing
      rw [hcall]
    · exact .inr hdrop

theorem Inv.due_step (hi : s.Inv) (hm : Moves s s' a) (d : TaskId) (h : s'.Due d)
    (hopen : s'.base.Open d) : (∃ x, s'.Releasing x d) ∨ d ∈ s'.dropped := by
  obtain ⟨hw', ds, hd', hall'⟩ := h
  have hf := hi.follows hm
  rcases hf.edges.born d (by simp [hd']) with hold | ⟨x, hadd⟩
  · obtain ⟨ds₀, hd⟩ := Option.ne_none_iff_exists'.mp hold
    obtain rfl : ds₀ = ds := by
      have hkept := hf.edges.declared d ds₀ hd
      simpa using hkept.symm.trans hd'
    have hused : d ∈ s.base.used := hi.tables.order.declaredUsed d hold
    have hw : s.base.status d = some .waiting := by
      obtain ⟨c, hturn⟩ := hf.turn
      cases hturn.rows d with
      | same hsame =>
        unfold WorkflowState.status at hw' ⊢
        rwa [← hsame]
      | moved r r' hr hr' _ _ hwaits =>
        have hst' : r'.row.status = .waiting := by simpa [WorkflowState.status, hr'] using hw'
        simp [WorkflowState.status, hr, (hwaits hst').1]
      | gone hnone => simp [WorkflowState.status, hnone] at hw'
      | born hnew => exact absurd hused hnew
    by_cases hall : ∀ u ∈ ds₀, s.base.SucceededOrRecorded u
    · rcases hi.owed ⟨hw, ds₀, hd, hall⟩ with ⟨x, hx⟩ | hdrop
      · by_cases hown : a.caller = some x
        · exact (hi.releasing_own hm hx hown hopen hw hw').imp_left fun h => ⟨x, h⟩
        · exact .inl ⟨x, hi.releasing_kept hm hx hown hused hw'⟩
      · exact .inr (hm.dropped d hdrop)
    · push Not at hall
      obtain ⟨u, hu, hnot⟩ := hall
      rcases hf.before hi.tables (hall' u hu) with
        hbefore | ⟨x, replied, r, stage, rfl, hcall, hwon⟩
      · exact absurd hbefore hnot
      · exact (hi.released_by hm hcall hwon hd hu hw).imp_left fun h => ⟨x, h⟩
  · rcases hm.added_waiting hadd hw' with ⟨hcall, -⟩ | hdrop
    · left
      refine ⟨x, ?_⟩
      unfold Releasing
      rw [hcall]
    · exact .inr hdrop

theorem Inv.step (hi : s.Inv) (h : s.step a = some s') : s'.Inv := by
  have hm := step_moves h
  refine ⟨(hi.follows hm).tables, fun x => ?_, hi.marks_step hm, hi.due_step hm⟩
  by_cases hown : a.caller = some x
  · exact hi.callOk_own hm hown
  · cases hidle : (s.calls x).isIdle with
    | false => exact hi.callOk_kept hm hown hidle
    | true =>
      rw [hm.call hown]
      cases hcall : s.calls x with
      | idle => trivial
      | _ =>
        rw [hcall] at hidle
        cases hidle

theorem inv_of_start (h : s.Start) : s.Inv := by
  obtain ⟨hbase, -, hcalls, -⟩ := h
  refine ⟨WorkflowState.tables_of_start hbase, fun x => ?_, fun d => .inl ?_, fun d hdue _ => ?_⟩
  · rw [hcalls]
    trivial
  · obtain ⟨-, -, -, -, -, he, -⟩ := hbase
    intro e hmem
    rw [he] at hmem
    cases hmem
  · obtain ⟨-, -, -, hr, -⟩ := hbase
    obtain ⟨hw, -⟩ := hdue
    simp [WorkflowState.status, hr] at hw

theorem reachable_inv (h : releasingSystem.Reachable s) : s.Inv :=
  h.invariant Inv (fun _ hs => inv_of_start hs) fun _ _ _ hi hs => hi.step hs

/-- What costs a node its prompt release: the lost answer to a COMMIT, a lock conflict lost once too
often, and an error, or the end of a process, between the COMMIT and the release. -/
def GivesUp (s : ReleasingState) : ReleasingAction → Prop
  | .commitAdd _ _ _ _ _ replied | .commitOutcome _ replied => replied = false
  | .markProven x locked => ¬ (s.base.passes x).wanted ⊆ locked
  | .conflict x => ∃ left chunk i, s.calls x = .releasing left chunk i ∧ releaseChunkAttempts ≤ i
  | .fail x => (s.calls x).owed ≠ []
  | _ => False

theorem dropped_of_step (h : s.step a = some s') (hc : ¬ s.GivesUp a) : s'.dropped = s.dropped := by
  cases step_moves h with
  | commitAdd y w task call inherited now replied base hcall hb hs =>
    subst hs
    have hreplied : replied = true := by simpa [GivesUp] using hc
    simp [commit, hreplied]
  | commitOutcome y replied t r stage hcall hdone hs =>
    subst hs
    have hreplied : replied = true := by simpa [GivesUp] using hc
    simp [commit, hreplied]
  | markProven y locked t base hcall hb hs =>
    subst hs
    have hall : (s.base.passes y).wanted ⊆ locked := by simpa [GivesUp] using hc
    simp [hall]
  | giveUp y left chunk i base hcall hlast hb hs => exact absurd ⟨left, chunk, i, hcall, hlast⟩ hc
  | fail y base hb hs =>
    subst hs
    have hnil : (s.calls y).owed = [] := by simpa [GivesUp] using hc
    simp [hnil]
  | other _ _ _ _ _ hs | take _ _ _ _ _ _ hs | lockUpstream _ _ _ _ _ _ hs
  | advance _ _ _ _ _ _ _ _ _ hs | write _ _ _ _ _ _ _ _ _ _ _ _ _ _ hs
  | lockNode _ _ _ _ _ hs | noNode _ _ _ _ _ hs | readEdges _ _ _ _ _ hs
  | takeChunk _ _ _ _ hs | finish _ _ hs =>
    subst hs
    rfl

end ReleasingState

/-- Whatever the order of the statements, a node that waits behind nothing but successes is owed
its release by some call, or its release was given up; and where no step of the run gives one up, it
is owed. So with nobody in a call, nothing waits behind successes alone. Workers that record no nodes
are left out: every SUCCESSFUL outcome is written in a call of its own (`WorkflowState.Beside`). -/
theorem no_lost_release {s : ReleasingState} {d : TaskId} {ds : List TaskId}
    (h : releasingSystem.Reachable s) (hd : s.base.declared d = some ds)
    (hw : s.base.status d = some .waiting) (hall : ∀ u ∈ ds, s.base.SucceededOrRecorded u) :
    ((∃ x, d ∈ (s.calls x).owed) ∨ d ∈ s.dropped) ∧
    (releasingSystem.ReachesBy (fun s a => ¬ s.GivesUp a) s → ∃ x, d ∈ (s.calls x).owed) := by
  have howed : (∃ x, d ∈ (s.calls x).owed) ∨ d ∈ s.dropped := by
    rcases (ReleasingState.reachable_inv h).owed ⟨hw, ds, hd, hall⟩ with ⟨x, hx⟩ | hdrop
    · exact .inl ⟨x, hx.owed⟩
    · exact .inr hdrop
  refine ⟨howed, fun hkept => ?_⟩
  have hnone : s.dropped = [] := by
    refine hkept.invariant (fun s => s.dropped = []) (fun s hs => ?_) fun s a s' hs hc hstep => ?_
    · have hstart : s.Start := hs
      exact hstart.2.2.2
    · exact (ReleasingState.dropped_of_step hstep hc).trans hs
  rcases howed with howed | hdrop
  · exact howed
  · rw [hnone] at hdrop
    cases hdrop

def noReleases : ReleasingState := ⟨noWorkflow, fun _ => none, fun _ => .idle, []⟩

/-- The node of "b" is added behind "a" while the outcome of "a" is written: the outcome waits for
the node that `add` has locked, and finds the edge. -/
def addedUnderOutcome : List ReleasingAction :=
  [.other (.create 0), .take 0 0 "a" [], .resolve 0, .commitAdd 0 1 oneAttempt 1 0 true,
    .other (.clear 1), .other (.claim 1 (.claimPostgresql (soloWorker "w1") 5 5)),
    .take 0 0 "b" ["a"], .resolve 0, .lockUpstream 0 1,
    .write 4 1 ⟨1, 1⟩ (heldAttempt [] 1 1) 6 (.returned none), .readSucceeded 0 100,
    .commitAdd 0 2 oneAttempt 1 0 true, .lockNode 4, .recheck 0, .proveRows 0 100,
    .proveRecords 0 100, .markProven 0 [1], .takeChunk 0 100, .beginChunk 0, .readHeld 0,
    .readWaiting 0, .releaseMany 0 7, .finish 0, .readEdges 4, .commitOutcome 4 true]

/-- The re-check came too early, and the outcome owes the release. -/
theorem no_lost_release_added :
    ∃ s x, releasingSystem.run noReleases addedUnderOutcome = some s ∧
      s.base.status 2 = some .waiting ∧ 2 ∈ (s.calls x).owed := by
  have hrun : (releasingSystem.run noReleases addedUnderOutcome).map (fun s =>
      (s.base.status 1, s.base.status 2, s.base.declared 2, s.dropped)) =
      some (some .successful, some .waiting, some [1], []) := by decide +kernel
  obtain ⟨s, hs, hfacts⟩ := Option.map_eq_some_iff.mp hrun
  simp only [Prod.mk.injEq] at hfacts
  obtain ⟨hwon, hwaits, hdeclared, hnone⟩ := hfacts
  have hreach : releasingSystem.Reachable s :=
    .of_run ⟨noWorkflow_start, fun _ => rfl, fun _ => rfl, rfl⟩ hs
  have hall : ∀ u ∈ [1], s.base.SucceededOrRecorded u := by
    intro u hu
    rw [List.mem_singleton.mp hu]
    exact .inl hwon
  rcases (no_lost_release hreach hdeclared hwaits hall).1 with ⟨x, hx⟩ | hdrop
  · exact ⟨s, x, hs, hwaits, hx⟩
  · rw [hnone] at hdrop
    cases hdrop

end DjangoOx
