import DjangoOx.Workflow.Counts

/-! The counts of a workflow over every run of adds and seals, and what an `add` that raises
leaves. -/
namespace DjangoOx

open Machine

namespace AddState

open WorkflowTables

variable {s s' : AddState} {x w : ℕ} {a : AddAction} {call : WorkflowCall}
  {db : Ledger WorkflowTables WorkflowWrite ℕ ℕ}

theorem owes_failed (call : WorkflowCall) : call.failed.owes = none := by
  cases call <;> rfl

theorem inner_failed (call : WorkflowCall) : call.failed.inner = 0 := by
  cases call <;> rfl

theorem failing_failed (h : call.inside = true) : call.failed.failing = true := by
  cases call with
  | idle => cases h
  | adding c i stage => rfl
  | sealing w i stage => rfl

theorem inside_failed (h : call.inside = true) : call.failed.inside = true := by
  cases call with
  | idle => cases h
  | adding c i stage => rfl
  | sealing w i stage => rfl

theorem inner_le (call : WorkflowCall) : call.inner ≤ 1 := by
  unfold WorkflowCall.inner
  split <;> omega

theorem owes_of_failing (h : call.failing = true) : call.owes = none ∧ call.inner = 0 := by
  unfold WorkflowCall.failing at h
  split at h
  · exact ⟨rfl, rfl⟩
  · exact ⟨rfl, rfl⟩
  · cases h

theorem owes_of_finished (h : call.finished = true) :
    call.owes = none ∧ call.inner = 0 ∧ call.failing = false := by
  unfold WorkflowCall.finished at h
  split at h
  · exact ⟨rfl, rfl, rfl⟩
  · exact ⟨rfl, rfl, rfl⟩
  · cases h

theorem inside_of_failing (h : call.failing = true) : call.inside = true := by
  unfold WorkflowCall.failing at h
  split at h
  · rfl
  · rfl
  · cases h

/-- An exception leaves the statements of a call. -/
theorem Inv.failed {keep : Bool} (hi : s.Inv) (hin : (s.callers x).call.inside = true) :
    (s.went x (if (s.callers x).call.inner = 1 then s.db.undo x keep else s.db)
      (s.callers x).call.failed).Inv := by
  have hx := hi.callers x
  have hok := hx.entry
  unfold EntryOk at hok
  rw [if_pos hin] at hok
  have hle := inner_le (s.callers x).call
  have howes := owes_failed (s.callers x).call
  have hzero := inner_failed (s.callers x).call
  have hfailing := failing_failed hin
  have hentry : ∀ work saves, InsideOk (s.callers x) 0 saves →
      EntryOk { s.callers x with call := (s.callers x).call.failed } work saves := by
    intro work saves h
    unfold EntryOk
    rw [if_pos (inside_failed hin), hzero]
    exact h
  have hstill : (s.callers x).call.failed.failing = false → False := by simp [hfailing]
  by_cases hinner : (s.callers x).call.inner = 1
  · rw [if_pos hinner]
    rw [hinner] at hok
    cases hp : s.db.saves x with
    | nil =>
      have hsame : s.db.undo x keep = s.db := by simp [Ledger.undo, hp]
      rw [hp] at hok
      rw [hsame]
      refine hi.own (u := { s.callers x with call := (s.callers x).call.failed }) .refl rfl
        ⟨hx.guarded, fun h => (hstill h).elim, by simp [howes], ?_, hx.opens, hx.savedOpens,
          hentry _ _ ?_⟩ rfl rfl
      · rw [hp, List.drop_nil]
        exact fun p hp => by cases hp
      · rw [hp]
        exact hok
    | cons p rest =>
      have hcommitted : (s.db.undo x keep).committed = s.db.committed := by simp [Ledger.undo, hp]
      rw [hp] at hok
      exact hi.own (u := { s.callers x with call := (s.callers x).call.failed }) Ledger.spares_undo
        hcommitted (hx.undone hp hzero howes (fun h => (hstill h).elim) hle (hentry _ _ hok))
        rfl rfl
  · rw [if_neg hinner]
    have hnone : (s.callers x).call.inner = 0 := by omega
    rw [hnone] at hok
    exact hi.turned rfl (fun h => (hstill h).elim) (by simp [howes]) (hzero.trans hnone.symm)
      (hentry _ _ hok)

theorem stepBlock_inv (hi : s.Inv) (h : s.stepBlock a = some s') : s'.Inv := by
  cases a with
  | refuse x =>
    simp only [stepBlock] at h
    split at h
    · next c hc =>
      obtain rfl := Option.some.inj h
      obtain ⟨hview, -, hentry⟩ := hi.calling hc
      exact hi.turned hc hview (fun _ h => by cases h) rfl (entryOk_idle rfl hentry.1)
    · next w hc =>
      obtain rfl := Option.some.inj h
      obtain ⟨hview, -, hentry⟩ := hi.calling hc
      exact hi.turned hc hview (fun _ h => by cases h) rfl (entryOk_idle rfl hentry.1)
    · cases h
  | enter x =>
    have hentered : ∀ call call' : WorkflowCall, (s.callers x).call = call → call.inside = false →
        call ≠ .idle → call'.inside = true → call.owes = none ∧ call.inner = 0 ∧
          call.failing = false → call'.owes = none ∧ call'.inner = 0 →
        (s.went x (if (s.callers x).opened then s.db.save x else s.db) call').Inv := by
      rintro call call' hc hout hcall hin ⟨howes, hinner, hsteady⟩ ⟨howes', hinner'⟩
      obtain ⟨hview, -, hentry⟩ := hi.calling hc
      have hfits : (s.view x).Fits none := howes ▸ hview hsteady
      unfold EntryOk at hentry
      rw [if_neg (by simp [hout])] at hentry
      have hwork : s.db.work x = (s.callers x).entry := hentry.2 hcall
      have hzero : (s.callers x).call.inner = 0 := by rw [hc, hinner]
      split_ifs with ho
      · refine hi.own (u := { s.callers x with call := call' }) Ledger.spares_save rfl
          ((hi.callers x).save (fun _ => ?_) (by simp [howes']) (.inr ⟨hinner', hzero, hfits⟩) ?_)
          rfl rfl
        · rw [howes']
          exact hfits
        · unfold EntryOk InsideOk
          rw [if_pos hin, if_pos ho, hinner']
          exact ⟨_, _, rfl, hwork⟩
      · refine hi.turned hc (fun _ => ?_) (by simp [howes']) (hinner'.trans hinner.symm) ?_
        · rw [howes']
          exact hfits
        · unfold EntryOk InsideOk
          rw [if_pos hin, if_neg ho]
          exact hwork.symm.trans (hentry.1 (by simpa using ho))
    simp only [stepBlock] at h
    split at h
    · next c i hc =>
      obtain rfl := Option.some.inj h
      exact hentered _ _ hc rfl (by simp) rfl ⟨rfl, rfl, rfl⟩ ⟨rfl, rfl⟩
    · next w i hc =>
      obtain rfl := Option.some.inj h
      exact hentered _ _ hc rfl (by simp) rfl ⟨rfl, rfl, rfl⟩ ⟨rfl, rfl⟩
    · cases h
  | fail x keep =>
    obtain ⟨⟨hin, -⟩, h⟩ := Option.ite_none_right_eq_some.mp h
    obtain rfl := Option.some.inj h
    exact hi.failed hin
  | leave x =>
    obtain ⟨hdone, h⟩ := Option.ite_none_right_eq_some.mp h
    obtain rfl := Option.some.inj h
    obtain ⟨howes, hinner, hsteady⟩ := owes_of_finished hdone
    have hx := hi.callers x
    have hfits : (s.view x).Fits none := howes ▸ hx.view hsteady
    split_ifs with ho
    · exact hi.own (u := { s.callers x with call := .idle }) Ledger.spares_forget rfl
        (hx.forget (fun _ => hfits) rfl rfl (by omega)
          (entryOk_idle rfl fun h => absurd (ho.symm.trans h) (by simp))) rfl rfl
    · exact hi.commit (u := { s.callers x with call := .idle }) hfits rfl
        (entryOk_idle rfl fun _ => rfl) rfl rfl
  | raise x keep =>
    obtain ⟨hfailing, h⟩ := Option.ite_none_right_eq_some.mp h
    obtain rfl := Option.some.inj h
    obtain ⟨-, hinner⟩ := owes_of_failing hfailing
    have hx := hi.callers x
    have hok := hx.entry
    unfold EntryOk at hok
    rw [if_pos (inside_of_failing hfailing), hinner] at hok
    split_ifs with ho
    · unfold InsideOk at hok
      rw [if_pos ho] at hok
      obtain ⟨p, rest, hp, -⟩ := hok
      have hcommitted : (s.db.undo x keep).committed = s.db.committed := by
        simp [Ledger.undo, show s.db.saves x = p :: rest from hp]
      exact hi.own (u := { s.callers x with call := .idle }) Ledger.spares_undo hcommitted
        (hx.undone hp rfl rfl (fun _ => hinner) (by omega)
          (entryOk_idle rfl fun h => absurd (ho.symm.trans h) (by simp))) rfl rfl
    · exact hi.own (u := { s.callers x with call := .idle }) Ledger.spares_rollback rfl
        (callerInv_rollback hi.sound rfl (entryOk_idle rfl fun _ => rfl)) rfl rfl
  | lose x conflict =>
    obtain ⟨hin, h⟩ := Option.ite_none_right_eq_some.mp h
    have hok := (hi.callers x).entry
    unfold EntryOk at hok
    rw [if_pos hin] at hok
    split_ifs at h with ho
    · obtain rfl := Option.some.inj h
      exact hi.own (u := { s.callers x with call := .idle, lost := true })
        Ledger.spares_rollback rfl
        (callerInv_rollback hi.sound rfl (entryOk_idle rfl fun _ => rfl)) rfl rfl
    · obtain rfl := Option.some.inj h
      have hclosed : ¬ (s.callers x).opened = true := ho
      unfold InsideOk at hok
      rw [if_neg hclosed] at hok
      have hnext : ∀ call : WorkflowCall, call = .idle ∨ (∃ c i, call = .adding c i .called) ∨
          (∃ w i, call = .sealing w i .called) →
          ((s.setDb (s.db.rollback x)).setCall x call).Inv := by
        intro call hcall
        refine hi.own (u := { s.callers x with call := call }) Ledger.spares_rollback rfl
          (callerInv_rollback hi.sound ?_ ?_) rfl rfl
        · rcases hcall with rfl | ⟨c, i, rfl⟩ | ⟨w, i, rfl⟩
          · rfl
          · rfl
          · rfl
        · rcases hcall with rfl | ⟨c, i, rfl⟩ | ⟨w, i, rfl⟩
          · exact entryOk_idle rfl fun _ => rfl
          · exact ⟨fun _ => rfl, fun _ => hok.symm⟩
          · exact ⟨fun _ => rfl, fun _ => hok.symm⟩
      apply hnext
      cases hr : conflict.bind (s.callers x).call.reissued with
      | none => exact .inl rfl
      | some call =>
        obtain ⟨e, -, he⟩ := Option.bind_eq_some_iff.mp hr
        unfold WorkflowCall.reissued at he
        split at he
        · obtain ⟨-, he⟩ := Option.ite_none_right_eq_some.mp he
          exact .inr (.inl ⟨_, _, (Option.some.inj he).symm⟩)
        · obtain ⟨-, he⟩ := Option.ite_none_right_eq_some.mp he
          exact .inr (.inr ⟨_, _, (Option.some.inj he).symm⟩)
        · cases he
  | _ => cases h

/-- A row that somebody outside writes. -/
theorem Inv.row {f g : OxpullWorkflow} (hi : s.Inv) (hf : s.db.committed.workflows w = some f)
    (hfree : s.db.holder w = none) (hcount : g.nodeCount = f.nodeCount)
    (htotal : g.totalCount = f.totalCount) (hret : g.retired = false → f.retired = false)
    (hclosed : f.status ≠ .opened) (hg : g.status ≠ .opened) :
    (s.setDb (s.db.put (s.db.committed.write (.workflow w g)))).Inv := by
  have hsound := hi.sound.sound w
  have hrow : (s.db.committed.counted w).1 = some f := hf
  unfold Tallied at hsound
  rw [hrow] at hsound
  refine hi.put (fun v hv => ?_) (hi.sound.row ⟨fun h => ?_, fun h => absurd h hg, fun _ => ?_⟩)
  · exact counted_workflow_of_ne fun he => hv (he ▸ hfree)
  · exact hcount.trans (hsound.1 (hret h))
  · rw [htotal, hcount]
    exact hsound.2.2 hclosed

theorem stepOther_inv (hi : s.Inv) (h : s.stepOther a = some s') : s'.Inv := by
  cases a with
  | complete w =>
    simp only [stepOther] at h
    split at h
    · next f hf =>
      obtain ⟨⟨hst, hfree⟩, h⟩ := Option.ite_none_right_eq_some.mp h
      obtain rfl := Option.some.inj h
      exact hi.row hf hfree rfl rfl (fun h => h) (by simp [hst]) (by simp)
    · cases h
  | stamp w =>
    simp only [stepOther] at h
    split at h
    · next f hf =>
      obtain ⟨⟨hst, hfree⟩, h⟩ := Option.ite_none_right_eq_some.mp h
      obtain rfl := Option.some.inj h
      exact hi.row hf hfree rfl rfl (fun h => by cases h) (by simp [hst]) (by simp [hst])
    · cases h
  | retire w tasks =>
    simp only [stepOther] at h
    split at h
    · next f hf =>
      obtain ⟨⟨hret, hfree⟩, h⟩ := Option.ite_none_right_eq_some.mp h
      obtain rfl := Option.some.inj h
      have hother : ∀ v, v ≠ w → (counted { s.db.committed with
          nodes := s.db.committed.nodes.filter fun n => ¬ (n.workflow = w ∧ n.task ∈ tasks)
          edges := s.db.committed.edges.filter fun e =>
            ¬ (e.workflow = w ∧ e.downstream ∈ tasks) } v) = s.db.committed.counted v := by
        intro v hv
        unfold counted
        rw [List.filter_filter]
        congr 1
        apply List.filter_congr
        intro n _
        by_cases hn : n.workflow = v
        · simp [hn, hv]
        · simp [hn]
      refine hi.put (fun v hv => hother v fun he => hv (he ▸ hfree)) (fits_none fun v => ?_)
      by_cases hv : v = w
      · subst hv
        have hsound := hi.sound.sound v
        have hrow : (s.db.committed.counted v).1 = some f := hf
        unfold Tallied at hsound ⊢
        rw [hrow] at hsound
        unfold counted
        simp only [hf]
        exact ⟨fun h => absurd (hret.symm.trans h) (by simp), hsound.2.1, hsound.2.2⟩
      · rw [hother v hv]
        exact hi.sound.sound v
    · cases h
  | move t st =>
    obtain ⟨-, h⟩ := Option.ite_none_right_eq_some.mp h
    obtain rfl := Option.some.inj h
    exact hi.put (fun _ _ => rfl) hi.sound
  | _ => cases h

theorem step_inv (hi : s.Inv) (h : s.step a = some s') : s'.Inv := by
  unfold step at h
  rcases Option.or_eq_some_iff.mp h with h | ⟨-, h⟩
  · exact stepCaller_inv hi h
  · rcases Option.or_eq_some_iff.mp h with h | ⟨-, h⟩
    · exact stepCall_inv hi h
    · rcases Option.or_eq_some_iff.mp h with h | ⟨-, h⟩
      · exact stepBlock_inv hi h
      · exact stepOther_inv hi h

theorem inv_of_start (h : s.Start) : s.Inv := by
  obtain ⟨hdb, hcallers⟩ := h
  have hsound : (⟨fun _ => none, fun _ => none, [], []⟩ : WorkflowTables).Fits none :=
    fits_none fun w => rfl
  refine ⟨hdb ▸ hsound, fun x => ?_⟩
  rw [hdb, hcallers x]
  exact ⟨Ledger.guarded_idle _, fun _ => hsound, fun _ h => (by cases h), fun _ h => (by cases h),
    fun _ h => (by cases h), fun _ h => (by cases h), entryOk_idle rfl fun _ => rfl⟩

theorem reachable_inv (h : addSystem.Reachable s) : s.Inv :=
  h.invariant Inv (fun _ hs => inv_of_start hs) fun _ _ _ hi hs => step_inv hi hs

end AddState

/-- The session that acts; `none` for everybody outside. -/
def AddAction.caller : AddAction → Option ℕ
  | .begin x | .savepoint x | .release x | .undo x _ | .commit x | .rollback x | .create x _
  | .add x _ | .sealOnce x _ | .refuse x | .enter x | .takeForAdd x | .enqueue x _
  | .resolveDependencies x | .readSucceeded x | .enterInsert x | .insertNode x | .insertEdges x
  | .leaveInsert x | .releaseAddedNode x | .sealRow x | .fail x _ | .leave x | .raise x _
  | .lose x _ => some x
  | .complete _ | .stamp _ | .retire _ _ | .move _ _ => none

namespace AddState

open WorkflowTables

variable {s s' : AddState} {x w : ℕ} {a : AddAction}

theorem committed_edges (edges : List AddedEdge) (db : Ledger WorkflowTables WorkflowWrite ℕ ℕ) :
    (edges.foldl (fun db e => db.write x (.edge e)) db).committed = db.committed := by
  induction edges generalizing db with
  | nil => rfl
  | cons e edges ih => exact ih _

theorem stepCall_committed (h : s.stepCall a = some s') : s'.db.committed = s.db.committed := by
  cases a with
  | insertEdges x =>
    simp only [stepCall] at h
    split at h
    · obtain ⟨-, h⟩ := Option.ite_none_right_eq_some.mp h
      obtain rfl := Option.some.inj h
      exact committed_edges _ _
    · cases h
  | _ =>
    simp only [stepCall] at h
    repeat' split at h
    all_goals cases h
    all_goals rfl

theorem committed_undo (db : Ledger WorkflowTables WorkflowWrite ℕ ℕ) (keep : Bool) :
    (db.undo x keep).committed = db.committed := by
  unfold Ledger.undo
  split <;> rfl

theorem stepBlock_committed (h : s.stepBlock a = some s') (ha : ∀ x, a ≠ .leave x) :
    s'.db.committed = s.db.committed := by
  cases a with
  | leave x => exact absurd rfl (ha x)
  | enter x =>
    simp only [stepBlock] at h
    repeat' split at h
    all_goals cases h
    all_goals rfl
  | fail x keep =>
    obtain ⟨-, h⟩ := Option.ite_none_right_eq_some.mp h
    obtain rfl := Option.some.inj h
    change (if _ then _ else _ : Ledger WorkflowTables WorkflowWrite ℕ ℕ).committed = _
    split_ifs
    · exact committed_undo s.db keep
    · rfl
  | raise x keep =>
    obtain ⟨-, h⟩ := Option.ite_none_right_eq_some.mp h
    obtain rfl := Option.some.inj h
    change (if _ then _ else _ : Ledger WorkflowTables WorkflowWrite ℕ ℕ).committed = _
    split_ifs
    · exact committed_undo s.db keep
    · rfl
  | lose x conflict =>
    obtain ⟨-, h⟩ := Option.ite_none_right_eq_some.mp h
    split_ifs at h
    · obtain rfl := Option.some.inj h
      rfl
    · obtain rfl := Option.some.inj h
      rfl
  | _ =>
    simp only [stepBlock] at h
    repeat' split at h
    all_goals cases h
    all_goals rfl

/-- What a row that takes no nodes keeps. -/
structure Closed (c c' : WorkflowTables) (w : ℕ) : Prop where
  row : ∀ f, c.workflows w = some f → f.status ≠ .opened →
    ∃ f', c'.workflows w = some f' ∧ f'.status ≠ .opened ∧ f'.totalCount = f.totalCount
  nodes : ∀ f, c.workflows w = some f → f.status ≠ .opened → (c'.counted w).2 ⊆ (c.counted w).2

theorem closed_of_counted {c c' : WorkflowTables} (h : c'.counted w = c.counted w) :
    Closed c c' w := by
  have hrow : c'.workflows w = c.workflows w := congrArg Prod.fst h
  have hnodes : (c'.counted w).2 = (c.counted w).2 := congrArg Prod.snd h
  exact ⟨fun f hf hc => ⟨f, hrow.trans hf, hc, rfl⟩, fun _ _ _ => hnodes ▸ List.Subset.refl _⟩

/-- A transaction that commits leaves the rows that take no nodes. -/
theorem Inv.closed_view (hi : s.Inv) (w : ℕ) : Closed s.db.committed (s.view x) w := by
  have hsame : ∀ f, s.db.committed.workflows w = some f → f.status ≠ .opened →
      (s.view x).counted w = s.db.committed.counted w := fun f hf hc =>
    projects.foldl_skip fun o ho hk => hc ((hi.callers x).opens o ho w hk f hf)
  exact ⟨fun f hf hc => (closed_of_counted (hsame f hf hc)).row f hf hc,
    fun f hf hc => (closed_of_counted (hsame f hf hc)).nodes f hf hc⟩

theorem closed_write {c : WorkflowTables} {f g : OxpullWorkflow} {v : ℕ}
    (hf : c.workflows v = some f) (hg : g.status ≠ .opened) (htotal : g.totalCount = f.totalCount)
    (w : ℕ) : Closed c (c.write (.workflow v g)) w := by
  by_cases hw : w = v
  · subst hw
    refine ⟨fun f' hf' _ => ?_, fun _ _ _ => ?_⟩
    · rw [hf] at hf'
      obtain rfl := Option.some.inj hf'
      exact ⟨g, Function.update_self .., hg, htotal⟩
    · rw [counted_workflow]
      exact List.Subset.refl _
  · exact closed_of_counted (counted_workflow_of_ne hw)

/-- No step adds a node to a workflow that takes none, or opens it again. -/
theorem Inv.closed (hi : s.Inv) (h : s.step a = some s') (w : ℕ) :
    Closed s.db.committed s'.db.committed w := by
  unfold step at h
  rcases Option.or_eq_some_iff.mp h with h | ⟨-, h⟩
  · cases a with
    | commit x =>
      obtain ⟨-, h⟩ := Option.ite_none_right_eq_some.mp h
      obtain rfl := Option.some.inj h
      exact hi.closed_view w
    | undo x keep =>
      obtain ⟨-, h⟩ := Option.ite_none_right_eq_some.mp h
      obtain rfl := Option.some.inj h
      have hsame : (s.db.undo x keep).committed = s.db.committed := committed_undo s.db keep
      exact closed_of_counted (congrArg (counted · w) hsame)
    | create x v =>
      obtain ⟨⟨-, -, hnone⟩, h⟩ := Option.ite_none_right_eq_some.mp h
      split_ifs at h
      · obtain rfl := Option.some.inj h
        exact closed_of_counted rfl
      · obtain rfl := Option.some.inj h
        by_cases hw : w = v
        · subst hw
          refine ⟨fun f hf _ => ?_, fun f hf _ => ?_⟩
          · rw [hnone] at hf
            cases hf
          · rw [hnone] at hf
            cases hf
        · exact closed_of_counted (counted_workflow_of_ne hw)
    | _ =>
      simp only [stepCaller] at h
      repeat' split at h
      all_goals cases h
      all_goals exact closed_of_counted rfl
  · rcases Option.or_eq_some_iff.mp h with h | ⟨-, h⟩
    · exact closed_of_counted (congrArg (counted · w) (stepCall_committed h))
    · rcases Option.or_eq_some_iff.mp h with h | ⟨-, h⟩
      · by_cases ha : ∃ x, a = .leave x
        · obtain ⟨x, rfl⟩ := ha
          obtain ⟨-, h⟩ := Option.ite_none_right_eq_some.mp h
          obtain rfl := Option.some.inj h
          change Closed s.db.committed
            (if _ then _ else _ : Ledger WorkflowTables WorkflowWrite ℕ ℕ).committed w
          split_ifs
          · exact closed_of_counted rfl
          · exact hi.closed_view w
        · have hsame := stepBlock_committed h fun x hx => ha ⟨x, hx⟩
          exact closed_of_counted (congrArg (counted · w) hsame)
      · cases a with
        | complete v =>
          simp only [stepOther] at h
          split at h
          · next f hf =>
            obtain ⟨-, h⟩ := Option.ite_none_right_eq_some.mp h
            obtain rfl := Option.some.inj h
            exact closed_write (g := { f with status := .complete }) hf (by simp) rfl w
          · cases h
        | stamp v =>
          simp only [stepOther] at h
          split at h
          · next f hf =>
            obtain ⟨⟨hst, -⟩, h⟩ := Option.ite_none_right_eq_some.mp h
            obtain rfl := Option.some.inj h
            exact closed_write (g := { f with retired := true }) hf (by simp [hst]) rfl w
          · cases h
        | retire v tasks =>
          simp only [stepOther] at h
          split at h
          · next f hf =>
            obtain ⟨-, h⟩ := Option.ite_none_right_eq_some.mp h
            obtain rfl := Option.some.inj h
            refine ⟨fun f hf hc => ⟨f, hf, hc, rfl⟩, fun _ _ _ => ?_⟩
            intro n hn
            obtain ⟨hn, hw⟩ := List.mem_filter.mp hn
            exact List.mem_filter.mpr ⟨(List.mem_filter.mp hn).1, hw⟩
          · cases h
        | move t st =>
          obtain ⟨-, h⟩ := Option.ite_none_right_eq_some.mp h
          obtain rfl := Option.some.inj h
          exact closed_of_counted rfl
        | _ => cases h

/-- The states that the steps of a run lead to while the call of `x` goes on. -/
inductive Calls (x : ℕ) : AddState → AddState → Prop
  | refl (s : AddState) : Calls x s s
  | step {s t u : AddState} {a : AddAction} : Calls x s t → t.step a = some u →
      (u.callers x).call ≠ .idle → Calls x s u

theorem entry_setCaller {y : ℕ} {u : WorkflowCaller} (hu : u.entry = (s.callers y).entry) :
    ((s.setCaller y u).callers x).entry = (s.callers x).entry := by
  unfold setCaller
  by_cases hx : x = y
  · subst hx
    simp only [Function.update_self]
    exact hu
  · simp only [Function.update_of_ne hx]

/-- While a call goes on, what its transaction had written before is kept. -/
theorem entry_step (h : s.step a = some s') (hc : (s.callers x).call ≠ .idle) :
    (s'.callers x).entry = (s.callers x).entry := by
  unfold step at h
  rcases Option.or_eq_some_iff.mp h with h | ⟨-, h⟩
  · cases a with
    | begin y =>
      obtain ⟨-, h⟩ := Option.ite_none_right_eq_some.mp h
      obtain rfl := Option.some.inj h
      exact entry_setCaller rfl
    | commit y | rollback y =>
      obtain ⟨-, h⟩ := Option.ite_none_right_eq_some.mp h
      obtain rfl := Option.some.inj h
      exact entry_setCaller (s := s.setDb _) rfl
    | add y c | sealOnce y v =>
      obtain ⟨⟨hidle, -⟩, h⟩ := Option.ite_none_right_eq_some.mp h
      obtain rfl := Option.some.inj h
      have hx : x ≠ y := fun he => hc (he ▸ hidle)
      unfold begun setCaller
      simp only [Function.update_of_ne hx]
    | _ =>
      simp only [stepCaller] at h
      repeat' split at h
      all_goals cases h
      all_goals rfl
  · rcases Option.or_eq_some_iff.mp h with h | ⟨-, h⟩
    · cases a <;> simp only [stepCall] at h
      all_goals repeat' split at h
      all_goals cases h
      all_goals exact entry_setCaller (s := s.setDb _) rfl
    · rcases Option.or_eq_some_iff.mp h with h | ⟨-, h⟩
      · cases a <;> simp only [stepBlock] at h
        all_goals repeat' split at h
        all_goals cases h
        all_goals exact entry_setCaller (s := s.setDb _) rfl
      · cases a <;> simp only [stepOther] at h
        all_goals repeat' split at h
        all_goals cases h
        all_goals rfl

end AddState

namespace AddState

variable {s s' : AddState} {x w : ℕ} {a : AddAction} {c : AddCall} {i : ℕ} {stage : AddStage}

theorem entry_calls (h : Calls x s s') (hc : (s.callers x).call ≠ .idle) :
    (s'.callers x).entry = (s.callers x).entry ∧ (s'.callers x).call ≠ .idle := by
  induction h with
  | refl => exact ⟨rfl, hc⟩
  | step _ hstep hnext ih =>
    obtain ⟨hentry, hcall⟩ := ih
    exact ⟨(entry_step hstep hcall).trans hentry, hnext⟩

/-- Where the transaction of an `add` that raises stands: back where the call began, or with all of
the caller's work rolled back by the server. -/
def Undone (s s' : AddState) (x : ℕ) : Prop :=
  s'.db.work x = (s.callers x).entry ∨ s'.db.work x = [] ∧ (s'.callers x).lost = true

theorem undone_rollback (db : Ledger WorkflowTables WorkflowWrite ℕ ℕ) :
    (db.rollback x).work x = [] := Function.update_self ..

theorem call_setCaller {y : ℕ} {u : WorkflowCaller} (hc : (s.callers x).call ≠ .idle)
    (hu : x = y → u.call ≠ .idle) : ((s.setCaller y u).callers x).call ≠ .idle := by
  unfold setCaller
  by_cases hx : x = y
  · subst hx
    simp only [Function.update_self]
    exact hu rfl
  · simp only [Function.update_of_ne hx]
    exact hc

theorem failed_ne {call : WorkflowCall} (h : call.inside = true) : call.failed ≠ .idle := by
  intro he
  have hin := inside_failed h
  rw [he] at hin
  cases hin

/-- How a call ends. -/
theorem call_step (h : s.step a = some s') (hc : (s.callers x).call ≠ .idle) :
    (s'.callers x).call ≠ .idle ∨ a = .refuse x ∨ (∃ keep, a = .raise x keep) ∨
      (∃ e, a = .lose x e) ∨ a = .leave x := by
  unfold step at h
  rcases Option.or_eq_some_iff.mp h with h | ⟨-, h⟩
  · left
    cases a with
    | begin y =>
      obtain ⟨-, h⟩ := Option.ite_none_right_eq_some.mp h
      obtain rfl := Option.some.inj h
      exact call_setCaller hc fun he => he ▸ hc
    | commit y | rollback y =>
      obtain ⟨-, h⟩ := Option.ite_none_right_eq_some.mp h
      obtain rfl := Option.some.inj h
      exact call_setCaller (s := s.setDb _) hc fun he => he ▸ hc
    | add y c | sealOnce y v =>
      obtain ⟨-, h⟩ := Option.ite_none_right_eq_some.mp h
      obtain rfl := Option.some.inj h
      exact call_setCaller hc fun _ => by simp
    | _ =>
      simp only [stepCaller] at h
      repeat' split at h
      all_goals cases h
      all_goals exact hc
  · rcases Option.or_eq_some_iff.mp h with h | ⟨-, h⟩
    · left
      cases a <;> simp only [stepCall] at h
      all_goals repeat' split at h
      all_goals cases h
      all_goals exact call_setCaller (s := s.setDb _) hc fun _ => by simp
    · rcases Option.or_eq_some_iff.mp h with h | ⟨-, h⟩
      · cases a with
        | enter y =>
          left
          simp only [stepBlock] at h
          repeat' split at h
          all_goals cases h
          all_goals exact call_setCaller (s := s.setDb _) hc fun _ => by simp
        | fail y keep =>
          left
          obtain ⟨⟨hin, -⟩, h⟩ := Option.ite_none_right_eq_some.mp h
          obtain rfl := Option.some.inj h
          exact call_setCaller (s := s.setDb _) hc fun _ => failed_ne hin
        | refuse y =>
          by_cases hx : x = y
          · exact .inr (.inl (hx ▸ rfl))
          · left
            simp only [stepBlock] at h
            repeat' split at h
            all_goals cases h
            all_goals exact call_setCaller hc fun he => absurd he hx
        | raise y keep =>
          by_cases hx : x = y
          · exact .inr (.inr (.inl ⟨keep, hx ▸ rfl⟩))
          · obtain ⟨-, h⟩ := Option.ite_none_right_eq_some.mp h
            obtain rfl := Option.some.inj h
            exact .inl (call_setCaller (s := s.setDb _) hc fun he => absurd he hx)
        | leave y =>
          by_cases hx : x = y
          · exact .inr (.inr (.inr (.inr (hx ▸ rfl))))
          · obtain ⟨-, h⟩ := Option.ite_none_right_eq_some.mp h
            obtain rfl := Option.some.inj h
            exact .inl (call_setCaller (s := s.setDb _) hc fun he => absurd he hx)
        | lose y e =>
          by_cases hx : x = y
          · exact .inr (.inr (.inr (.inl ⟨e, hx ▸ rfl⟩)))
          · obtain ⟨-, h⟩ := Option.ite_none_right_eq_some.mp h
            left
            split_ifs at h
            · obtain rfl := Option.some.inj h
              exact call_setCaller (s := s.setDb _) hc fun he => absurd he hx
            · obtain rfl := Option.some.inj h
              exact call_setCaller (s := s.setDb _) hc fun he => absurd he hx
        | _ => cases h
      · left
        cases a <;> simp only [stepOther] at h
        all_goals repeat' split at h
        all_goals cases h
        all_goals exact hc

theorem step_block (ha : s.stepCaller a = none) (hb : s.stepCall a = none)
    (hc : s.stepOther a = none) : s.step a = s.stepBlock a := by
  unfold step
  rw [ha, hb, hc]
  simp

/-- A call that raises commits nothing, and what its transaction wrote in it is gone. -/
theorem Inv.raised (hi : s.Inv) (h : s.step a = some s') (hc : (s.callers x).call ≠ .idle)
    (hidle : (s'.callers x).call = .idle) (ha : a ≠ .leave x) :
    s'.db.committed = s.db.committed ∧ Undone s s' x := by
  have hok := (hi.callers x).entry
  unfold EntryOk at hok
  rcases call_step h hc with hne | rfl | ⟨keep, rfl⟩ | ⟨e, rfl⟩ | rfl
  · exact absurd hidle hne
  · rw [step_block rfl rfl rfl] at h
    refine ⟨stepBlock_committed h (by simp), .inl ?_⟩
    simp only [stepBlock] at h
    split at h
    · next hcall =>
      obtain rfl := Option.some.inj h
      rw [hcall] at hok
      exact hok.2 (by simp)
    · next hcall =>
      obtain rfl := Option.some.inj h
      rw [hcall] at hok
      exact hok.2 (by simp)
    · cases h
  · rw [step_block rfl rfl rfl] at h
    refine ⟨stepBlock_committed h (by simp), .inl ?_⟩
    obtain ⟨hfailing, h⟩ := Option.ite_none_right_eq_some.mp h
    obtain rfl := Option.some.inj h
    obtain ⟨-, hinner⟩ := owes_of_failing hfailing
    rw [if_pos (inside_of_failing hfailing), hinner] at hok
    unfold InsideOk at hok
    change (if _ then _ else _ : Ledger WorkflowTables WorkflowWrite ℕ ℕ).work x = _
    split_ifs with ho
    · rw [if_pos ho] at hok
      obtain ⟨p, rest, hp, hwork⟩ := hok
      have hsaves : s.db.saves x = p :: rest := hp
      rw [← hwork]
      simp [Ledger.undo, hsaves]
    · rw [if_neg ho] at hok
      rw [hok]
      exact undone_rollback s.db
  · rw [step_block rfl rfl rfl] at h
    refine ⟨stepBlock_committed h (by simp), ?_⟩
    obtain ⟨hin, h⟩ := Option.ite_none_right_eq_some.mp h
    rw [if_pos hin] at hok
    split_ifs at h with ho
    · obtain rfl := Option.some.inj h
      refine .inr ⟨undone_rollback s.db, ?_⟩
      simp [setCaller]
    · obtain rfl := Option.some.inj h
      have hclosed : ¬ (s.callers x).opened = true := ho
      unfold InsideOk at hok
      rw [if_neg hclosed] at hok
      left
      rw [hok]
      exact undone_rollback s.db
  · exact absurd rfl ha

/-- Until it returns, nothing of a call is committed. -/
theorem Inv.uncommitted (h : s.step a = some s') (hc : (s.callers x).call ≠ .idle)
    (hx : a.caller = some x) (ha : a ≠ .leave x) : s'.db.committed = s.db.committed := by
  unfold step at h
  rcases Option.or_eq_some_iff.mp h with h | ⟨-, h⟩
  · have hidle : ∀ y, a.caller = some y → (s.callers y).call ≠ .idle := by
      intro y hy
      rw [hx] at hy
      exact Option.some.inj hy ▸ hc
    cases a with
    | begin y | commit y | rollback y | savepoint y | release y | undo y keep | add y c
    | sealOnce y v | create y v =>
      obtain ⟨hready, -⟩ := Option.ite_none_right_eq_some.mp h
      have hbusy := hidle y rfl
      simp [InBlock, Ready, hbusy] at hready
    | _ => cases h
  · rcases Option.or_eq_some_iff.mp h with h | ⟨-, h⟩
    · exact stepCall_committed h
    · rcases Option.or_eq_some_iff.mp h with h | ⟨-, h⟩
      · refine stepBlock_committed h fun y hy => ha ?_
        subst hy
        rw [Option.some.inj hx]
      · cases a <;> first | cases h | cases hx

theorem Inv.step (hi : s.Inv) (h : addSystem.step s a = some s') : s'.Inv := step_inv hi h

theorem Inv.calls (hi : s.Inv) (h : Calls x s s') : s'.Inv := by
  induction h with
  | refl => exact hi
  | step _ hstep _ ih => exact step_inv ih hstep

theorem begun_of_add (h : addSystem.step s (.add x c) = some s') :
    (s'.callers x).entry = s.db.work x ∧ (s'.callers x).call ≠ .idle := by
  have hstep : s.step (.add x c) = s.stepCaller (.add x c) := by
    unfold AddState.step
    rw [show s.stepCall (.add x c) = none from rfl, show s.stepBlock (.add x c) = none from rfl,
      show s.stepOther (.add x c) = none from rfl]
    simp
  change s.step (.add x c) = some s' at h
  rw [hstep] at h
  obtain ⟨-, h⟩ := Option.ite_none_right_eq_some.mp h
  obtain rfl := Option.some.inj h
  simp [begun, setCaller]

end AddState

/-- In every committed state a workflow's row counts its nodes until they are retired, and a row
that is no longer OPEN holds that count as its total; no step adds a node to it. An `add` commits
nothing before it returns, and one that raises leaves its transaction with what it had written
before. -/
theorem workflow_total {s : AddState} (h : addSystem.Reachable s) :
    (∀ w f, s.db.committed.workflows w = some f → f.retired = false →
      f.nodeCount = (s.db.committed.nodes.filter (·.workflow = w)).length) ∧
    (∀ w f, s.db.committed.workflows w = some f → f.status ≠ .opened →
      f.totalCount = some f.nodeCount) ∧
    (∀ a s', addSystem.step s a = some s' → ∀ w f, s.db.committed.workflows w = some f →
      f.status ≠ .opened →
      (∃ f', s'.db.committed.workflows w = some f' ∧ f'.status ≠ .opened ∧
        f'.totalCount = f.totalCount) ∧
      ∀ n ∈ s'.db.committed.nodes, n.workflow = w → n ∈ s.db.committed.nodes) ∧
    (∀ x c s₁ s₂ s₃ a, addSystem.step s (.add x c) = some s₁ → AddState.Calls x s₁ s₂ →
      addSystem.step s₂ a = some s₃ →
      ((s₃.callers x).call = .idle → a ≠ .leave x →
        s₃.db.committed = s₂.db.committed ∧
          (s₃.db.work x = s.db.work x ∨ s₃.db.work x = [] ∧ (s₃.callers x).lost = true)) ∧
      (a.caller = some x → a ≠ .leave x → s₃.db.committed = s₂.db.committed)) := by
  have hi := AddState.reachable_inv h
  refine ⟨fun w f hf hret => ?_, fun w f hf hclosed => ?_, fun a s' hs w f hf hclosed => ?_, ?_⟩
  · have hsound := hi.sound.sound w
    have hrow : (s.db.committed.counted w).1 = some f := hf
    unfold Tallied at hsound
    rw [hrow] at hsound
    exact hsound.1 hret
  · have hsound := hi.sound.sound w
    have hrow : (s.db.committed.counted w).1 = some f := hf
    unfold Tallied at hsound
    rw [hrow] at hsound
    exact hsound.2.2 hclosed
  · have hkept := hi.closed hs w
    refine ⟨hkept.row f hf hclosed, fun n hn hw => ?_⟩
    have hmem : n ∈ (s'.db.committed.counted w).2 := List.mem_filter.mpr ⟨hn, by simp [hw]⟩
    exact (List.mem_filter.mp (hkept.nodes f hf hclosed hmem)).1
  · intro x c s₁ s₂ s₃ a hadd hcalls hs
    have hbegun := AddState.begun_of_add hadd
    have hinv : s₂.Inv := (hi.step hadd).calls hcalls
    obtain ⟨hentry, hbusy⟩ := AddState.entry_calls hcalls hbegun.2
    refine ⟨fun hidle ha => ?_, fun hx ha => AddState.Inv.uncommitted hs hbusy hx ha⟩
    obtain ⟨hcommitted, hundone⟩ := hinv.raised hs hbusy hidle ha
    unfold AddState.Undone at hundone
    rw [hentry, hbegun.1] at hundone
    exact ⟨hcommitted, hundone⟩

/-- Nobody has done anything. -/
def noAdds : AddState := ⟨Ledger.idle ⟨fun _ => none, fun _ => none, [], []⟩,
  fun _ => ⟨false, false, .idle, []⟩, []⟩

/-- One statement of an `add` after the other, from its lock to its last. -/
def addStatements (x : ℕ) (task : TaskId) : List AddAction :=
  [.takeForAdd x, .enqueue x task, .resolveDependencies x, .readSucceeded x, .enterInsert x,
    .insertNode x, .insertEdges x, .leaveInsert x, .releaseAddedNode x]

/-- An `add` that loses a deadlock and is reissued; one inside a caller's transaction, which waits
for it; there, one of a name that is taken; and `seal`. -/
def addedTwice : List AddAction :=
  [.create 0 7, .add 0 ⟨7, "a", []⟩, .enter 0, .takeForAdd 0, .lose 0 (some .deadlock), .enter 0] ++
    addStatements 0 1 ++ [.begin 1, .add 1 ⟨7, "b", ["a"]⟩, .enter 1, .leave 0] ++
    addStatements 1 2 ++ [.leave 1, .add 1 ⟨7, "b", []⟩, .enter 1, .takeForAdd 1, .enqueue 1 3,
      .resolveDependencies 1, .readSucceeded 1, .enterInsert 1, .fail 1 false, .raise 1 true,
      .commit 1, .sealOnce 0 7, .enter 0, .sealRow 0, .leave 0]

theorem workflow_total_sealed :
    ∃ s, addSystem.run noAdds addedTwice = some s ∧
      s.db.committed.workflows 7 = some ⟨.sealed, 2, some 2, false⟩ ∧
      2 = (s.db.committed.nodes.filter (·.workflow = 7)).length := by
  have hrun : (addSystem.run noAdds addedTwice).map (fun s => s.db.committed.workflows 7) =
      some (some ⟨.sealed, 2, some 2, false⟩) := by decide +kernel
  obtain ⟨s, hs, hf⟩ := Option.map_eq_some_iff.mp hrun
  have hstart : noAdds.Start := ⟨rfl, fun _ => rfl⟩
  exact ⟨s, hs, hf, (workflow_total (.of_run hstart hs)).1 7 _ hf rfl⟩

end DjangoOx
