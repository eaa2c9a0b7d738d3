import DjangoOx.Workflow.Releasing
import DjangoOx.Workflow.Retire

/-! What one step can do to the edges of a workflow and to what is known to have succeeded. -/
namespace DjangoOx

open Machine

/-- The party commits the node of the task. -/
def WorkflowAction.Adds (a : WorkflowAction) (x : ℕ) (task : TaskId) : Prop :=
  ∃ call inherited now, a = .commitAdd x task call inherited now

namespace WorkflowState

variable {s s' : WorkflowState} {x : ℕ} {t u : TaskId} {a : WorkflowAction} {p c : Option ℕ}
  {adds : ℕ → TaskId → Prop}

/-- `_succeeded_or_recorded` -/
def SucceededOrRecorded (s : WorkflowState) (u : TaskId) : Prop :=
  s.status u = some .successful ∨ s.status u = none ∧ s.recorded u = some .successful

/-- A step marks edges, deletes them, and inserts those of a node that it adds: `adds` says by
whom, and the task. -/
structure EdgeTurn (s s' : WorkflowState) (adds : ℕ → TaskId → Prop) : Prop where
  declared : ∀ t ds, s.declared t = some ds → s'.declared t = some ds
  born : ∀ t, s'.declared t ≠ none → s.declared t ≠ none ∨ ∃ x, adds x t
  nextEdge : s.nextEdge ≤ s'.nextEdge
  edges : ∀ e' ∈ s'.edges,
    (∃ e ∈ s.edges, e'.pk = e.pk ∧ e'.upstream = e.upstream ∧ e'.downstream = e.downstream ∧
      (e.satisfied = true → e'.satisfied = true)) ∨
    ∃ x, adds x e'.downstream ∧ s.declared e'.downstream = none ∧ s.nextEdge ≤ e'.pk ∧
      s'.declared e'.downstream = some (s.passes x).upstream ∧
      e'.upstream ∈ (s.passes x).upstream ∧
      ((s.passes x).released = true → e'.satisfied = true)

theorem edgeTurn_of_eq (hd : s'.declared = s.declared) (hn : s'.nextEdge = s.nextEdge)
    (he : s'.edges = s.edges) : EdgeTurn s s' adds where
  declared _ _ h := by rwa [hd]
  born _ h := .inl (hd ▸ h)
  nextEdge := hn ▸ le_rfl
  edges e' h := .inl ⟨e', he ▸ h, rfl, rfl, rfl, id⟩

theorem edgeTurn_of_map {f : OxpullWorkflowEdge → OxpullWorkflowEdge}
    (hd : s'.declared = s.declared) (hn : s'.nextEdge = s.nextEdge) (he : s'.edges = s.edges.map f)
    (hf : ∀ e, f e = e ∨ f e = { e with satisfied := true }) : EdgeTurn s s' adds where
  declared _ _ h := by rwa [hd]
  born _ h := .inl (hd ▸ h)
  nextEdge := hn ▸ le_rfl
  edges e' h := by
    rw [he] at h
    obtain ⟨e, hmem, rfl⟩ := List.mem_map.mp h
    left
    refine ⟨e, hmem, ?_⟩
    rcases hf e with hsame | hmark
    · simp [hsame]
    · simp [hmark]

/-- A release of many writes their rows, and no success. -/
theorem releaseMany_frame {now : ℤ} (h : s.step (.releaseMany x now) = some s') :
    ∃ rows, s' = WorkflowState.setPass { s with rows := rows } x .idle := by
  simp only [step] at h
  split at h
  · next pairs hp =>
    obtain ⟨-, h⟩ := Option.ite_none_right_eq_some.mp h
    obtain rfl := Option.some.inj h
    have hsucceeded : (s.updateMany pairs fun e => .release e now).succeeded = s.succeeded :=
      succeeded_updateMany fun e b st hm => by simp [hm.2]
    obtain ⟨rows, succeeded, heq⟩ := updateMany_frame s pairs fun e => .release e now
    rw [heq] at hsucceeded ⊢
    obtain rfl : succeeded = s.succeeded := hsucceeded
    exact ⟨rows, rfl⟩
  · cases h

/-- A cancellation of many writes their rows and records, and no success. -/
theorem cancelMany_frame {now : ℤ} (h : s.step (.cancelMany x now) = some s') :
    ∃ rows nodes, s' = WorkflowState.unlock
      (WorkflowState.setPass { s with rows := rows, nodes := nodes } x .idle) x := by
  simp only [step] at h
  split at h
  · next w doomed pairs hp =>
    obtain ⟨-, h⟩ := Option.ite_none_right_eq_some.mp h
    obtain rfl := Option.some.inj h
    have hsucceeded : (s.updateMany pairs fun e => .cancelMany e now).succeeded = s.succeeded :=
      succeeded_updateMany fun e b st hm => by simp [hm.2]
    obtain ⟨rows, succeeded, heq⟩ := updateMany_frame s pairs fun e => .cancelMany e now
    obtain ⟨nodes, hlevel, -⟩ :=
      exists_level (s.updateMany pairs fun e => .cancelMany e now) pairs _
    rw [hlevel]
    rw [heq] at hsucceeded ⊢
    obtain rfl : succeeded = s.succeeded := hsucceeded
    exact ⟨rows, nodes, rfl⟩
  · cases h

theorem passes_step (h : s.step a = some s') (hx : a.party ≠ some x) :
    s'.passes x = s.passes x := by
  have hne : ∀ y, a.party = some y → x ≠ y := fun y hy he => hx (he ▸ hy)
  cases a with
  | claim t c | row t c =>
    obtain ⟨-, h⟩ := Option.ite_none_right_eq_some.mp h
    obtain ⟨r, -, rfl⟩ := Option.map_eq_some_iff.mp h
    rfl
  | outcome t b held now ending =>
    obtain ⟨-, h⟩ := Option.ite_none_right_eq_some.mp h
    obtain ⟨r, -, rfl⟩ := Option.map_eq_some_iff.mp h
    obtain ⟨nodes, edges, heq⟩ :=
      recordNodeOutcome_frame (s.putRow t r) t r.row.status r.row.leaseEpoch
    simp only [heq]
    split_ifs <;> rfl
  | commitAdd y task call inherited now =>
    simp only [step] at h
    split at h
    · split at h
      · obtain ⟨-, h⟩ := Option.ite_none_right_eq_some.mp h
        obtain rfl := Option.some.inj h
        exact Function.update_of_ne (hne y rfl) ..
      · cases h
    · cases h
  | releaseMany y now =>
    obtain ⟨rows, rfl⟩ := releaseMany_frame h
    exact Function.update_of_ne (hne y rfl) ..
  | cancelMany y now =>
    obtain ⟨rows, nodes, rfl⟩ := cancelMany_frame h
    exact Function.update_of_ne (hne y rfl) ..
  | abort y =>
    obtain rfl := Option.some.inj h
    exact Function.update_of_ne (hne y rfl) ..
  | create w | sealOnce w | complete w | stamp w | clear w | pruneTask w =>
    simp only [step] at h
    repeat' split at h
    all_goals cases h
    all_goals rfl
  | _ =>
    simp only [step] at h
    repeat' split at h
    all_goals cases h
    all_goals exact Function.update_of_ne (hne _ rfl) ..

theorem step_edgeTurn (ho : s.OrderInv) (h : s.step a = some s') : EdgeTurn s s' a.Adds := by
  cases a with
  | claim t c | row t c =>
    obtain ⟨-, h⟩ := Option.ite_none_right_eq_some.mp h
    obtain ⟨r, -, rfl⟩ := Option.map_eq_some_iff.mp h
    exact edgeTurn_of_eq rfl rfl rfl
  | outcome t b held now ending =>
    obtain ⟨-, h⟩ := Option.ite_none_right_eq_some.mp h
    obtain ⟨r, -, rfl⟩ := Option.map_eq_some_iff.mp h
    split_ifs
    · have hedges := edges_recordNodeOutcome (s.putRow t r) t r.row.status r.row.leaseEpoch
      obtain ⟨nodes, edges, heq⟩ :=
        recordNodeOutcome_frame (s.putRow t r) t r.row.status r.row.leaseEpoch
      rw [heq] at hedges ⊢
      by_cases hmark : r.row.status = .successful ∧ ((s.putRow t r).nodeOf t).isSome = true
      · rw [if_pos hmark] at hedges
        refine edgeTurn_of_map rfl rfl hedges fun e => ?_
        by_cases hup : e.upstream = t <;> simp [hup]
      · rw [if_neg hmark] at hedges
        exact edgeTurn_of_eq rfl rfl hedges
    · exact edgeTurn_of_eq rfl rfl rfl
  | commitAdd x task call inherited now =>
    simp only [step] at h
    split at h
    · next w name upstream won hx =>
      split at h
      · obtain ⟨⟨-, hnew, -⟩, h⟩ := Option.ite_none_right_eq_some.mp h
        obtain rfl := Option.some.inj h
        have hnone : s.declared task = none := by
          by_contra hd
          exact hnew (ho.declaredUsed task hd)
        refine ⟨fun t ds hd => ?_, fun t hd => ?_, Nat.le_add_right _ _, fun e' he' => ?_⟩
        · have hne : t ≠ task := by
            rintro rfl
            rw [hnone] at hd
            cases hd
          exact (Function.update_of_ne hne ..).trans hd
        · by_cases ht : t = task
          · exact .inr ⟨x, call, inherited, now, ht ▸ rfl⟩
          · exact .inl (Function.update_of_ne ht (some upstream) s.declared ▸ hd)
        · rcases List.mem_append.mp he' with hold | hadd
          · exact .inl ⟨e', hold, rfl, rfl, rfl, id⟩
          · right
            obtain ⟨hge, -, hdown, hup, hsat⟩ := mem_addedEdges hadd
            rw [hdown]
            refine ⟨x, ⟨call, inherited, now, rfl⟩, hnone, hge, ?_, ?_, ?_⟩
            · rw [hx]
              exact Function.update_self ..
            · rw [hx]
              exact hup
            · intro hrel
              rw [hx] at hrel
              have hsub : upstream ⊆ won := by simpa [WorkflowPass.released] using hrel
              exact hsat.mpr (hsub hup)
      · cases h
    · cases h
  | markProven x locked =>
    simp only [step] at h
    split at h
    · obtain rfl := Option.some.inj h
      refine edgeTurn_of_map rfl rfl rfl fun e => ?_
      split_ifs
      · exact .inr rfl
      · exact .inl rfl
    · cases h
  | commitRepairs x =>
    simp only [step] at h
    split at h
    · obtain rfl := Option.some.inj h
      refine edgeTurn_of_map rfl rfl rfl fun e => ?_
      split_ifs
      · exact .inr rfl
      · exact .inl rfl
    · cases h
  | releaseMany x now =>
    obtain ⟨rows, rfl⟩ := releaseMany_frame h
    exact edgeTurn_of_eq rfl rfl rfl
  | cancelMany x now =>
    obtain ⟨rows, nodes, rfl⟩ := cancelMany_frame h
    exact edgeTurn_of_eq rfl rfl rfl
  | retireChunk x =>
    simp only [step] at h
    split at h
    · next w c chunk hx =>
      obtain ⟨-, h⟩ := Option.ite_none_right_eq_some.mp h
      obtain rfl := Option.some.inj h
      refine ⟨fun _ _ h => h, fun _ h => .inl h, le_rfl, fun e' he' => ?_⟩
      obtain ⟨e, hmem, rfl⟩ := List.mem_map.mp he'
      refine .inl ⟨e, (List.mem_filter.mp hmem).1, ?_⟩
      by_cases hmark : e.workflow = w ∧ e.upstream ∈ s.goingSucceeded (c :: chunk)
      · simp [hmark]
      · simp [hmark]
    · cases h
  | _ =>
    simp only [step] at h
    repeat' split at h
    all_goals cases h
    all_goals exact edgeTurn_of_eq rfl rfl rfl

/-- Where no success is written, nothing joins what has succeeded. -/
theorem succeeded_beside (ho : s.OrderInv) (hc : a.WritesPlain = false)
    (hout : ∀ t b held now ending, a = .outcome t b held now ending → s.Beside a = true)
    (h : s.step a = some s') (hu : u ∈ s'.succeeded) : u ∈ s.succeeded := by
  cases a with
  | claim t d | row t d =>
    obtain ⟨⟨hkind, -⟩, h⟩ := Option.ite_none_right_eq_some.mp h
    obtain ⟨r', hb, rfl⟩ := Option.map_eq_some_iff.mp h
    obtain ⟨r, hrow, hd⟩ := Option.bind_eq_some_iff.mp hb
    rcases (mem_succeeded_putRow s t u r').mp hu with hold | ⟨rfl, hst⟩
    · exact hold
    · refine won_of_step ho hrow hd ?_ hst
      rintro b held now ending rfl
      simp [RowAction.IsClaim, WorkflowAction.WritesPlain] at hkind hc
  | outcome t b held now ending =>
    have hbeside := hout t b held now ending rfl
    obtain ⟨-, h⟩ := Option.ite_none_right_eq_some.mp h
    obtain ⟨r, hb, rfl⟩ := Option.map_eq_some_iff.mp h
    have hquiet : ¬ r.row.status.RecordedByTheWorker := by
      simpa [Beside, hb] using hbeside
    have hstatus : ¬ (r.row.status = .successful ∨ r.row.status = .failed) := hquiet
    simp only [if_neg hstatus] at hu
    rcases (mem_succeeded_putRow s t u r).mp hu with hold | ⟨-, hst⟩
    · exact hold
    · exact absurd (.inl hst) hstatus
  | commitAdd x task call inherited now =>
    simp only [step] at h
    split at h
    · next w name upstream won hx =>
      split at h
      · obtain ⟨-, h⟩ := Option.ite_none_right_eq_some.mp h
        obtain rfl := Option.some.inj h
        have hput := (mem_succeeded_putRow s task u
          ⟨addedRow call inherited now upstream won, [], [], [], []⟩).mp hu
        rcases hput with hold | ⟨-, hst⟩
        · exact hold
        · have hadded : _ ∨ (addedRow call inherited now upstream won).status = .waiting :=
            addedRow_status
          rcases hadded with ⟨hready, -⟩ | hwait
          · rw [hready] at hst
            cases hst
          · rw [hwait] at hst
            cases hst
      · cases h
    · cases h
  | releaseMany x now =>
    obtain ⟨rows, rfl⟩ := releaseMany_frame h
    exact hu
  | cancelMany x now =>
    obtain ⟨rows, nodes, rfl⟩ := cancelMany_frame h
    exact hu
  | _ =>
    simp only [step] at h
    repeat' split at h
    all_goals cases h
    all_goals exact hu

theorem unused_of_adds (ha : a.Adds x t) (h : s.step a = some s') : t ∉ s.used := by
  obtain ⟨call, inherited, now, rfl⟩ := ha
  simp only [step] at h
  split at h
  · split at h
    · obtain ⟨⟨-, hnew, -⟩, -⟩ := Option.ite_none_right_eq_some.mp h
      exact hnew
    · cases h
  · cases h

/-- What has succeeded is known to have: its row stays SUCCESSFUL, and its record says so. -/
theorem LastInv.succeededOrRecorded (hl : s.LastInv) (hr : s.RecordInv) (hu : u ∈ s.succeeded)
    (hn : s.status u = none → ∃ n ∈ s.nodes, n.task = u) : s.SucceededOrRecorded u := by
  cases hst : s.status u with
  | some st => exact .inl (hl.final u hu st hst ▸ hst)
  | none =>
    obtain ⟨n, hmem, rfl⟩ := hn hst
    refine .inr ⟨hst, ?_⟩
    rw [recorded_eq_of_mem hr hmem]
    exact hl.recorded n hmem hu

theorem SucceededOrRecorded.succeeded (ho : s.OrderInv) (h : s.SucceededOrRecorded u) :
    u ∈ s.succeeded := by
  rcases h with hst | ⟨-, hrec⟩
  · exact ho.won u hst
  · obtain ⟨n, hn, rfl, hout⟩ := recorded_mem hrec
    exact ho.records n hn hout

theorem Turn.nodeTask (h : Turn s s' p c) {k : ℕ × ℕ × TaskId} (hk : k ∈ s'.nodeKeys) :
    k ∈ s.nodeKeys ∨ k.2.2 ∉ s.used := by
  cases h.tables with
  | added v g task hn _ _ _ hnew =>
    rw [hn] at hk
    rcases List.mem_append.mp hk with hk | hk
    · exact .inl hk
    · rw [List.mem_singleton.mp hk]
      exact .inr hnew
  | retired _ _ _ keep _ hn =>
    obtain ⟨n, hmem, rfl⟩ := List.mem_map.mp hk
    rw [hn] at hmem
    exact .inl (List.mem_map_of_mem (List.mem_filter.mp hmem).1)
  | still hn _ _ | created _ hn _ _ _ | moved _ _ _ hn _ _ _ _ => exact .inl (hn ▸ hk)

/-- What is known to have succeeded after a step, and had, was known before it. -/
theorem SucceededOrRecorded.before (hl : s.LastInv) (hr : s.RecordInv) (ht : Turn s s' p c)
    (h : s'.SucceededOrRecorded u) (hu : u ∈ s.succeeded) : s.SucceededOrRecorded u := by
  refine hl.succeededOrRecorded hr hu fun hst => ?_
  have hused : u ∈ s.used := hl.wonUsed u hu
  have hrow : s.rows u = none := by simpa [status] using hst
  have hgone : s'.rows u = none := none_of_turn hrow hused ht
  rcases h with hst' | ⟨-, hrec⟩
  · simp [status, hgone] at hst'
  · obtain ⟨n', hn', rfl, -⟩ := recorded_mem hrec
    rcases ht.nodeTask (List.mem_map_of_mem hn') with hk | hnew
    · obtain ⟨n, hn, hkey⟩ := List.mem_map.mp hk
      exact ⟨n, hn, congrArg (·.2.2) hkey⟩
    · exact absurd hused hnew

/-- A task that can still move is a node's. -/
def Noded (s : WorkflowState) : Prop :=
  ∀ t st, s.status t = some st → ¬ st.Retirable → ∃ k ∈ s.nodeKeys, k.2.2 = t

theorem Noded.turn (hd : s.Noded) (hi : s.CountInv) (ht : Turn s s' p c) : s'.Noded := by
  intro t st hst hlive
  -- the node of a row that could move before the step is still there after it
  have hkept : ∀ st₀, s.status t = some st₀ → ¬ st₀.Retirable → ∃ k ∈ s'.nodeKeys, k.2.2 = t := by
    intro st₀ hst₀ hlive₀
    obtain ⟨k, hk, hkt⟩ := hd t st₀ hst₀ hlive₀
    refine ⟨k, ?_, hkt⟩
    cases ht.tables with
    | still hn _ _ | created _ hn _ _ _ | moved _ _ _ hn _ _ _ _ => exact hn ▸ hk
    | added v g task hn =>
      rw [hn]
      exact List.mem_append_left _ hk
    | retired y w chunk keep hy hn _ _ hkeep =>
      obtain ⟨n, hmem, rfl⟩ := List.mem_map.mp hk
      unfold nodeKeys
      rw [hn]
      refine List.mem_map_of_mem (List.mem_filter.mpr ⟨hmem, ?_⟩)
      by_contra hgone
      obtain ⟨q, hq, hpk, hfinal⟩ := hkeep n hmem (by simpa using hgone)
      have hkey := ((hi.chunked y w chunk hy).2 q hq).2 n.key hk hpk.symm
      have htask : q.2.1 = t := (congrArg Prod.snd hkey).symm.trans hkt
      exact hlive₀ (hfinal st₀ (htask ▸ hst₀))
  cases ht.rows t with
  | same hsame =>
    refine hkept st ?_ hlive
    unfold status at hst ⊢
    rwa [← hsame]
  | moved r r' hr hr' _ hfinal _ =>
    have hst' : r'.row.status = st := by simpa [status, hr'] using hst
    refine hkept r.row.status (by simp [status, hr]) fun hfin => hlive ?_
    rw [← hst', hfinal hfin]
    exact hfin
  | gone hgone =>
    simp [status, hgone] at hst
  | born _ hnode => exact hnode

/-- A release of a row that waits at the epoch given moves it. -/
theorem release_of_mem {pairs : List (TaskId × ℕ)} {e : ℕ} (hmem : (t, e) ∈ pairs)
    (hrow : s.row t = some (.waiting, e)) (now : ℤ) :
    (s.updateMany pairs fun e => .release e now).status t ≠ some .waiting := by
  unfold updateMany
  induction pairs generalizing s with
  | nil => cases hmem
  | cons q pairs ih =>
    rw [List.foldl_cons]
    by_cases hq : q = (t, e)
    · -- the row is READY by the first pair, and no later one makes it WAITING again
      subst hq
      obtain ⟨r, hr, hreq⟩ := Option.map_eq_some_iff.mp hrow
      obtain ⟨hst, rfl⟩ := Prod.mk.inj hreq
      have hput : ∃ r', s.update t (.release r.row.leaseEpoch now) = s.putRow t r' ∧
          r'.row.status = .ready := by
        refine ⟨r.commit .released (r.row.released now), ?_, rfl⟩
        unfold update
        simp [hr, RowState.step, OxTask.release, hst]
      obtain ⟨r', hput, hready⟩ := hput
      intro hwait
      have hrows := @rows_updateMany (s.update t (.release r.row.leaseEpoch now)) pairs
        (fun e => .release e now) (fun _ => rfl) t
      rcases hrows with hsame | ⟨-, r₁, r₂, hr₁, hr₂, -, hback⟩
      · unfold status at hwait
        rw [show (pairs.foldl _ _ : WorkflowState).rows t = _ from hsame, hput, rows_putRow,
          if_pos rfl] at hwait
        simp [hready] at hwait
      · have hwait₂ : r₂.row.status = .waiting := by
          unfold status at hwait
          rw [show (pairs.foldl _ _ : WorkflowState).rows t = _ from hr₂] at hwait
          simpa using hwait
        rw [hput, rows_putRow, if_pos rfl] at hr₁
        obtain rfl := Option.some.inj hr₁
        rw [(hback hwait₂).1] at hready
        cases hready
    · have hmem' : (t, e) ∈ pairs := (List.mem_cons.mp hmem).resolve_left (Ne.symm hq)
      refine ih hmem' ?_
      rcases update_cases s q.1 (.release q.2 now) with h | ⟨r, r', hr, hstep, h⟩
      · rw [h]
        exact hrow
      · rw [h, row_putRow]
        split_ifs with ht
        · obtain ⟨new, hnew, -⟩ := Option.map_eq_some_iff.mp hstep
          obtain ⟨⟨-, he⟩, -⟩ := OxTask.release_eq_some.mp hnew
          have hrow' : s.row t = some (r.row.status, r.row.leaseEpoch) := by
            rw [ht]
            simp [row, hr]
          rw [hrow] at hrow'
          obtain ⟨-, hepoch⟩ := Prod.mk.inj (Option.some.inj hrow')
          exact absurd (Prod.ext ht.symm (he.symm.trans hepoch.symm)) hq
        · exact hrow

end WorkflowState

end DjangoOx
