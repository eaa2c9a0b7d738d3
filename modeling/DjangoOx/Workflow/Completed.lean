import DjangoOx.Workflow.DeadRows

/-! The completion of a workflow over every run: when it commits, what it counts, and what is
enqueued with it. -/
namespace DjangoOx

open Machine

/-- The party that acts; `none` for those that hold no lock between their steps. -/
def CompletingAction.party : CompletingAction → Option ℕ
  | .other a => a.party
  | .create _ _ _ => none
  | .complete x _ | .filter x | .enter x | .win x | .readDead x | .lockDead x _ | .classify x
  | .readRow x | .countLive x | .sendComplete x _ | .sendSuccess x _ | .store x | .commit x | .fail x
  | .lose x _ => some x

namespace CompletingState

open WorkflowState (Turn)

variable {s s' t : CompletingState} {a : CompletingAction} {x y w i : ℕ} {u : TaskId}
  {stage : CompletionStage} {reads : CompletionReads} {row : CompletionRow} {total : ℕ}
  {fields : CompletionFields} {p c : Option ℕ}

/-- What a step does beside the call that takes it. -/
inductive Effect (s s' : CompletingState) (a : CompletingAction) : Prop
  | same (hb : s'.base = s.base) (hc : s'.columns = s.columns) (hk : s'.callbacks = s.callbacks)
  | other (b : WorkflowAction) (ha : a = .other b) (hother : b.IsOther = true)
      (hidle : ∀ x, b.party = some x → s.calls x = .idle) (hb : s.base.step b = some s'.base)
      (hc : s'.columns = s.columns) (hk : s'.callbacks = s.callbacks)
  | create (w : ℕ) (row : CompletionRow) (ha : a.party = none)
      (hb : s.base.step (.create w) = some s'.base)
      (hc : s'.columns = Function.update s.columns w row) (hk : s'.callbacks = s.callbacks)
  | locks (x : ℕ) (holder : TaskId → Option ℕ) (owner : ℕ → Option ℕ) (ha : a.party = some x)
      (hb : s'.base = { s.base with holder := holder, owner := owner })
      (hh : ∀ u y, s.base.holder u = some y → y ≠ x → holder u = some y)
      (ho : ∀ v y, s.base.owner v = some y → y ≠ x → owner v = some y)
      (hc : s'.columns = s.columns) (hk : s'.callbacks = s.callbacks)
  | commit (x w i : ℕ) (reads : CompletionReads) (row : CompletionRow) (fields : CompletionFields)
      (f : OxpullWorkflow) (ha : a = .commit x)
      (hcall : s.calls x = .completing w i (.stored reads row fields))
      (hf : s.base.workflows w = some f) (hs : s' = s.committed x w f row fields)

theorem effect_rollback {call : CompletionCall} (ha : a.party = some x)
    (h : s' = s.rollback x call) : Effect s s' a := by
  subst h
  refine .locks x _ _ ha rfl (fun u y hy hne => ?_) (fun v y hy hne => ?_) rfl rfl
  · exact (if_neg (by rw [hy]; simpa using hne)).trans hy
  · exact (if_neg (by rw [hy]; simpa using hne)).trans hy

theorem step_cases (h : s.step a = some s') :
    s.stepOther a = some s' ∨ s.stepLock a = some s' ∨ s.stepComplete a = some s' := by
  unfold step at h
  rcases Option.or_eq_some_iff.mp h with h | ⟨-, h⟩
  · exact .inl h
  · rcases Option.or_eq_some_iff.mp h with h | ⟨-, h⟩
    · exact .inr (.inl h)
    · exact .inr (.inr h)

theorem effect_of_stepOther (h : s.stepOther a = some s') : Effect s s' a := by
  cases a with
  | other b =>
    obtain ⟨⟨hother, hidle, -⟩, h⟩ := Option.ite_none_right_eq_some.mp h
    obtain ⟨base, hb, rfl⟩ := Option.map_eq_some_iff.mp h
    exact .other b rfl hother hidle hb rfl rfl
  | create w onComplete onSuccess =>
    obtain ⟨base, hb, rfl⟩ := Option.map_eq_some_iff.mp h
    exact .create w _ rfl hb rfl rfl
  | _ => cases h

theorem effect_of_stepLock (h : s.stepLock a = some s') : Effect s s' a := by
  cases a with
  | win x =>
    simp only [stepLock] at h
    split at h
    · next w i hc =>
      split at h
      · next f hf =>
        split_ifs at h with hst hfree
        · obtain rfl := Option.some.inj h
          refine .locks x s.base.holder _ rfl rfl (fun _ _ hy _ => hy) (fun v y hy _ => ?_) rfl rfl
          have hv : v ≠ w := by
            rintro rfl
            rw [hfree] at hy
            cases hy
          exact (Function.update_of_ne hv ..).trans hy
        · obtain rfl := Option.some.inj h
          exact effect_rollback rfl rfl
      · obtain rfl := Option.some.inj h
        exact effect_rollback rfl rfl
    · cases h
  | lockDead x t =>
    simp only [stepLock] at h
    split at h
    · next w i dead unlocked gone hc =>
      split at h
      · next d hd =>
        split at h
        · obtain rfl := Option.some.inj h
          exact .same rfl rfl rfl
        · split_ifs at h with hfree hrow
          · obtain rfl := Option.some.inj h
            exact effect_rollback rfl rfl
          · obtain rfl := Option.some.inj h
            refine .locks x _ s.base.owner rfl rfl (fun v y hy hne => ?_) (fun _ _ hy _ => hy) rfl rfl
            have hv : v ≠ t := by
              rintro rfl
              rcases hfree with hfree | hfree
              · rw [hfree] at hy
                cases hy
              · rw [hfree] at hy
                exact hne (Option.some.inj hy).symm
            exact (Function.update_of_ne hv ..).trans hy
      · cases h
    · cases h
  | _ =>
    simp only [stepLock] at h
    repeat' split at h
    all_goals cases h
    all_goals exact .same rfl rfl rfl

theorem effect_of_stepComplete (h : s.stepComplete a = some s') : Effect s s' a := by
  cases a with
  | commit x =>
    simp only [stepComplete] at h
    split at h
    · next w i reads row fields hc =>
      obtain ⟨f, hf, rfl⟩ := Option.map_eq_some_iff.mp h
      exact .commit x w i reads row fields f rfl hc hf rfl
    · cases h
  | fail x =>
    simp only [stepComplete] at h
    split_ifs at h
    obtain rfl := Option.some.inj h
    exact effect_rollback rfl rfl
  | lose x conflict =>
    obtain ⟨-, h⟩ := Option.ite_none_right_eq_some.mp h
    obtain rfl := Option.some.inj h
    exact effect_rollback rfl rfl
  | classify x =>
    simp only [stepComplete] at h
    split at h
    · split_ifs at h
      · obtain rfl := Option.some.inj h
        exact effect_rollback rfl rfl
      · obtain rfl := Option.some.inj h
        exact .same rfl rfl rfl
    · cases h
  | _ =>
    simp only [stepComplete] at h
    repeat' split at h
    all_goals cases h
    all_goals exact .same rfl rfl rfl

theorem step_effect (h : s.step a = some s') : Effect s s' a := by
  rcases step_cases h with h | h | h
  · exact effect_of_stepOther h
  · exact effect_of_stepLock h
  · exact effect_of_stepComplete h

theorem calls_of_step (h : s.step a = some s') (hx : a.party ≠ some x) :
    s'.calls x = s.calls x := by
  have hne : ∀ y, a.party = some y → x ≠ y := fun y hy he => hx (he ▸ hy)
  rcases step_cases h with h | h | h
  · cases a with
    | other b =>
      obtain ⟨-, h⟩ := Option.ite_none_right_eq_some.mp h
      obtain ⟨base, -, rfl⟩ := Option.map_eq_some_iff.mp h
      rfl
    | create w onComplete onSuccess =>
      obtain ⟨base, -, rfl⟩ := Option.map_eq_some_iff.mp h
      rfl
    | _ => cases h
  · cases a <;> simp only [stepLock] at h
    all_goals repeat' split at h
    all_goals cases h
    all_goals exact Function.update_of_ne (hne _ rfl) ..
  · cases a with
    | commit y =>
      simp only [stepComplete] at h
      split at h
      · obtain ⟨f, -, rfl⟩ := Option.map_eq_some_iff.mp h
        exact Function.update_of_ne (hne _ rfl) ..
      · cases h
    | _ =>
      simp only [stepComplete] at h
      repeat' split at h
      all_goals cases h
      all_goals exact Function.update_of_ne (hne _ rfl) ..

end CompletingState

namespace CompletingState

open WorkflowState (Turn turn_of_eq)

variable {s s' t : CompletingState} {a : CompletingAction} {x y w i : ℕ} {u : TaskId}
  {stage : CompletionStage} {reads : CompletionReads} {row : CompletionRow} {total : ℕ}
  {fields : CompletionFields} {c : Option ℕ}

/-- The states that the steps of a run lead to while `x` is past its compare-and-set on the
workflow, in one transaction. -/
inductive Within (x w : ℕ) : CompletingState → CompletingState → Prop
  | refl {s : CompletingState} : (s.calls x).won = some w → Within x w s s
  | step {s t u : CompletingState} {a : CompletingAction} : Within x w s t → t.step a = some u →
      (u.calls x).won = some w → Within x w s u

theorem Within.one (h : s.step a = some s') (hwon : (s.calls x).won = some w)
    (hwon' : (s'.calls x).won = some w) : Within x w s s' :=
  .step (.refl hwon) h hwon'

/-- In `t`, since when `x` is past its compare-and-set, the nodes were classified: nothing was
pending and no record was behind. Of the dead rows that `x` has not locked there are no more than
were pruned under its hand. -/
structure Counted (x w : ℕ) (reads : CompletionReads) (t s : CompletingState) : Prop where
  reachable : completingSystem.Reachable t
  within : Within x w t s
  row : s.base.workflows w = t.base.workflows w
  tasks : s.base.tasksOf w = t.base.tasksOf w
  columns : s.columns w = t.columns w
  classes : reads.classes = t.base.classify w
  pending : (t.base.classify w).pending = 0
  repair : (t.base.classify w).repair = 0
  gone : ∀ d ∈ reads.gone,
    d.status.RetryableDead ∧ d.task ∈ s.base.tasksOf w ∧ s.base.rows d.task = none
  loose : ∃ loose : List TaskId, loose.length ≤ reads.gone.length ∧
    ∀ u ∈ s.base.tasksOf w, u ∈ loose ∨ s.base.Resolved x u

/-- What the transaction is about to write. -/
structure Plan (s : CompletingState) (w : ℕ) (row : CompletionRow) (total : ℕ)
    (fields : CompletionFields) (complete success : Prop) : Prop where
  row : row = s.columns w
  total : total = (s.base.tasksOf w).length
  noTotal : fields.totalCount = none
  complete : fields.callbackTaskId ≠ none ↔ complete
  success : fields.successTaskId ≠ none ↔ success

/-- `on_success` is due. -/
def Clean (reads : CompletionReads) (total : ℕ) : Prop :=
  reads.classes.failed = 0 ∧ reads.classes.unattributed total = 0

def StageOk (s : CompletingState) (x w : ℕ) : CompletionStage → Prop
  | .called | .filtered | .entered => True
  | .won => s.base.Held x w
  | .locking dead unlocked gone => s.base.Held x w ∧ s.base.Locking x w dead unlocked gone
  | .classified reads => s.base.Held x w ∧ ∃ t, Counted x w reads t s
  -- `seal` writes the total with the status.
  | .totalless _ _ => False
  | .totalled reads row total fields =>
    s.base.Held x w ∧ (∃ t, Counted x w reads t s) ∧ Plan s w row total fields False False
  | .completeSent reads row total fields =>
    s.base.Held x w ∧ (∃ t, Counted x w reads t s) ∧
      Plan s w row total fields (row.onCompletePath ≠ "") False
  | .successSent reads row total fields =>
    s.base.Held x w ∧ (∃ t, Counted x w reads t s) ∧ Plan s w row total fields
      (row.onCompletePath ≠ "") (Clean reads total ∧ row.onSuccessPath ≠ "")
  | .stored reads new fields =>
    s.base.Held x w ∧ (∃ t, Counted x w reads t s) ∧ ∃ row total,
      new = row.stored reads.classes total fields ∧ Plan s w row total fields
        (row.onCompletePath ≠ "") (Clean reads total ∧ row.onSuccessPath ≠ "")

structure Inv (s : CompletingState) : Prop where
  order : s.base.OrderInv
  records : s.base.RecordInv
  counts : s.base.CountInv
  roles : ∀ w, ((s.callbacks.filter (·.workflow = w)).map (·.role)).Nodup
  early : ∀ k ∈ s.callbacks, s.base.Completed k.workflow
  stages : ∀ x w i stage, s.calls x = .completing w i stage → s.StageOk x w stage

theorem StageOk.held (h : s.StageOk x w stage) (hwon : (CompletionCall.completing w i stage).won =
    some w) : s.base.Held x w := by
  cases stage with
  | called => cases hwon
  | filtered => cases hwon
  | entered => cases hwon
  | won => exact h
  | totalless => exact h.elim
  | _ => exact h.1

/-- The row that a completion is about to store, and that its workflow is SEALED with a total. -/
theorem Inv.stored (hi : s.Inv) (hc : s.calls x = .completing w i (.stored reads row fields))
    {f : OxpullWorkflow} (hf : s.base.workflows w = some f) :
    f.status = .sealed ∧ s.base.owner w = some x ∧ fields.totalCount = none := by
  obtain ⟨⟨f', hf', hst, hown⟩, -, row₀, total, -, hplan⟩ := hi.stages x w i _ hc
  obtain rfl := Option.some.inj (hf.symm.trans hf')
  exact ⟨hst, hown, hplan.noTotal⟩

/-- A step completes a workflow by its commit only. -/
theorem Inv.turn (hi : s.Inv) (h : s.step a = some s') :
    ∃ c, Turn s.base s'.base a.party c ∧ ∀ w, c = some w → ∃ x i reads row fields,
      a = .commit x ∧ s.calls x = .completing w i (.stored reads row fields) := by
  cases step_effect h with
  | same hb =>
    rw [hb]
    exact ⟨none, turn_of_eq rfl rfl rfl rfl (.of_eq rfl) rfl rfl, by simp⟩
  | other b ha hother hidle hb =>
    subst ha
    refine ⟨none, ?_, by simp⟩
    have hturn := WorkflowState.step_turn hb
    have hnone : b.completes = none := by
      cases b with
      | complete w => cases hother
      | _ => rfl
    rw [hnone] at hturn
    exact hturn
  | create w row ha hb hc =>
    rw [ha]
    exact ⟨none, WorkflowState.step_turn hb, by simp⟩
  | locks x holder owner ha hb hh ho =>
    rw [hb]
    refine ⟨none, ⟨.of_eq rfl, .still rfl rfl rfl, .of_eq rfl, ?_, ?_⟩, by simp⟩
    · exact fun u y hy hne => hh u y hy fun he => hne (ha.trans (he ▸ rfl))
    · exact fun v y hy hne => ho v y hy fun he => hne (ha.trans (he ▸ rfl))
  | commit x w i reads row fields f ha hcall hf hs =>
    obtain ⟨hst, hown, htotal⟩ := hi.stored hcall hf
    subst ha
    subst hs
    refine ⟨some w, ⟨.of_eq rfl, ?_, .of_eq rfl, ?_, ?_⟩, ?_⟩
    · refine .moved w f _ rfl rfl hf rfl (.inr (.inl ⟨hst, ?_, rfl⟩))
      rw [htotal]
      rfl
    · intro u y hy hne
      exact (if_neg fun he => hne (he.symm.trans hy)).trans hy
    · intro v y hy hne
      exact (if_neg fun he => hne (he.symm.trans hy)).trans hy
    · intro v hv
      obtain rfl := Option.some.inj hv
      exact ⟨x, i, reads, row, fields, rfl, hcall⟩

theorem base_step (hi : s.Inv) (h : s.step a = some s') :
    s'.base.OrderInv ∧ s'.base.RecordInv ∧ s'.base.CountInv := by
  obtain ⟨c, hturn, -⟩ := hi.turn h
  have hcounts := hi.counts.turn hi.order hi.records hturn
  cases step_effect h with
  | same hb =>
    rw [hb]
    exact ⟨hi.order, hi.records, hi.counts⟩
  | other b _ _ _ hb =>
    exact ⟨WorkflowState.step_order hi.order hb, WorkflowState.step_record hi.order hi.records hb,
      hcounts⟩
  | create w row _ hb =>
    exact ⟨WorkflowState.step_order hi.order hb, WorkflowState.step_record hi.order hi.records hb,
      hcounts⟩
  | locks x holder owner _ hb =>
    rw [hb] at hcounts ⊢
    exact ⟨hi.order.hold holder owner, hi.records.hold holder owner, hcounts⟩
  | commit x w i reads row fields f _ _ _ hs =>
    subst hs
    refine ⟨hi.order.of_eq rfl rfl rfl rfl rfl rfl rfl rfl hi.order.passes, ?_, hcounts⟩
    exact hi.records.of_eq rfl rfl rfl fun _ _ hr => .inl hr

theorem columns_of_step (h : s.step a = some s') (hnone : s.base.workflows w ≠ none)
    (ha : ∀ y i reads row fields, a = .commit y →
      s.calls y = .completing w i (.stored reads row fields) → False) :
    s'.columns w = s.columns w := by
  cases step_effect h with
  | same _ hc => rw [hc]
  | other _ _ _ _ _ hc => rw [hc]
  | locks _ _ _ _ _ _ _ hc => rw [hc]
  | create v row _ hb hc =>
    rw [hc]
    refine Function.update_of_ne ?_ ..
    rintro rfl
    obtain ⟨hfree, -⟩ := Option.ite_none_right_eq_some.mp hb
    exact hnone hfree
  | commit y v i reads row fields f hcommit hcall hf hs =>
    subst hs
    refine Function.update_of_ne ?_ ..
    rintro rfl
    exact ha y i reads row fields hcommit hcall

theorem Counted.step (hcounted : Counted x w reads t s) (h : s.step a = some s')
    (hwon : (s'.calls x).won = some w) (hrow : s'.base.workflows w = s.base.workflows w)
    (htasks : s'.base.tasksOf w = s.base.tasksOf w) (hcolumns : s'.columns w = s.columns w)
    (hrows : ∀ u ∈ s.base.tasksOf w, (s.base.Resolved x u → s'.base.Resolved x u) ∧
      (s.base.rows u = none → s'.base.rows u = none)) : Counted x w reads t s' := by
  obtain ⟨loose, hlength, hloose⟩ := hcounted.loose
  refine ⟨hcounted.reachable, .step hcounted.within h hwon, hrow.trans hcounted.row,
    htasks.trans hcounted.tasks, hcolumns.trans hcounted.columns, hcounted.classes,
    hcounted.pending, hcounted.repair, fun d hd => ?_, loose, hlength, fun u hu => ?_⟩
  · obtain ⟨hdead, hmem, hnone⟩ := hcounted.gone d hd
    exact ⟨hdead, htasks ▸ hmem, (hrows _ hmem).2 hnone⟩
  · rw [htasks] at hu
    rcases hloose u hu with hin | hres
    · exact .inl hin
    · exact .inr ((hrows u hu).1 hres)

/-- A statement of the call that leaves the tables as they are. -/
theorem Counted.advance (hcounted : Counted x w reads t s) {call : CompletionCall}
    (h : s.step a = some s') (hb : s'.base = s.base) (hc : s'.columns = s.columns)
    (hcall : s'.calls x = call) (hwon : call.won = some w) : Counted x w reads t s' := by
  refine hcounted.step h (by rw [hcall, hwon]) (by rw [hb]) (by rw [hb]) (by rw [hc]) ?_
  rw [hb]
  exact fun u _ => ⟨id, id⟩

theorem Plan.congr {complete success : Prop} (h : Plan s w row total fields complete success)
    (htasks : s'.base.tasksOf w = s.base.tasksOf w) (hcolumns : s'.columns w = s.columns w) :
    Plan s' w row total fields complete success :=
  ⟨hcolumns ▸ h.row, htasks ▸ h.total, h.noTotal, h.complete, h.success⟩

/-- While the others go on, nothing moves that a completing transaction stands on. -/
theorem StageOk.foreign (hi : s.Inv) (hok : s.StageOk x w stage) (h : s.step a = some s')
    (hx : a.party ≠ some x) (hcall : s.calls x = .completing w i stage) :
    s'.StageOk x w stage := by
  obtain ⟨c, hturn, hcommit⟩ := hi.turn h
  have hcall' : s'.calls x = .completing w i stage := (calls_of_step h hx).trans hcall
  have hmine : ∀ y j reads row fields, s.base.Held x w → a = .commit y →
      s.calls y = .completing w j (.stored reads row fields) → False := by
    intro y j reads row fields hheld ha hcally
    obtain ⟨f, hf, -, hown⟩ := hheld
    obtain ⟨-, hown', -⟩ := hi.stored hcally hf
    have hxy : y = x := Option.some.inj (hown'.symm.trans hown)
    subst hxy ha
    exact hx rfl
  have hne : s.base.Held x w → c ≠ some w := by
    intro hheld hc
    obtain ⟨y, j, reads, row, fields, ha, hcally⟩ := hcommit w hc
    exact hmine y j reads row fields hheld ha hcally
  have hkeep : s.base.Held x w → s'.base.Held x w ∧ s'.base.tasksOf w = s.base.tasksOf w ∧
      s'.columns w = s.columns w := by
    intro hheld
    obtain ⟨hheld', -⟩ := hheld.turn hturn hx (hne hheld)
    obtain ⟨f, hf, hst, -⟩ := id hheld
    have hnone : s.base.workflows w ≠ none := by simp [hf]
    exact ⟨hheld', hi.counts.tasksOf_turn hturn hf hst, columns_of_step h hnone
      fun y j reads row fields => hmine y j reads row fields hheld⟩
  have hcounted : ∀ reads, s.base.Held x w → (∃ t, Counted x w reads t s) →
      (CompletionCall.completing w i stage).won = some w → ∃ t, Counted x w reads t s' := by
    intro reads hheld hex hwon
    obtain ⟨t, ht⟩ := hex
    obtain ⟨-, htasks, hcolumns⟩ := hkeep hheld
    obtain ⟨-, hrow⟩ := hheld.turn hturn hx (hne hheld)
    refine ⟨t, ht.step h (by rw [hcall', hwon]) hrow htasks hcolumns fun u hu => ?_⟩
    have hused := WorkflowState.mem_used hi.records hu
    exact ⟨fun hres => hres.turn hused hturn hx, fun hnone =>
      WorkflowState.none_of_turn hnone hused hturn⟩
  cases stage with
  | called => trivial
  | filtered => trivial
  | entered => trivial
  | won => exact (hkeep hok).1
  | locking dead unlocked gone =>
    obtain ⟨hheld, hlocking⟩ := hok
    have hkept := (hkeep hheld).1
    obtain ⟨f, hf, hst, -⟩ := hheld
    exact ⟨hkept, hlocking.turn hi.counts hi.records hturn hx hf hst⟩
  | classified reads =>
    obtain ⟨hheld, hex⟩ := hok
    exact ⟨(hkeep hheld).1, hcounted reads hheld hex rfl⟩
  | totalless reads row => exact hok.elim
  | totalled reads row total fields | completeSent reads row total fields
  | successSent reads row total fields =>
    obtain ⟨hheld, hex, hplan⟩ := hok
    obtain ⟨hheld', htasks, hcolumns⟩ := hkeep hheld
    exact ⟨hheld', hcounted reads hheld hex rfl, hplan.congr htasks hcolumns⟩
  | stored reads new fields =>
    obtain ⟨hheld, hex, row, total, hnew, hplan⟩ := hok
    obtain ⟨hheld', htasks, hcolumns⟩ := hkeep hheld
    exact ⟨hheld', hcounted reads hheld hex rfl, row, total, hnew, hplan.congr htasks hcolumns⟩

theorem deadRows_tasks (s : CompletingState) (w : ℕ) :
    List.Sublist ((s.deadRows w).map (·.task)) (s.base.tasksOf w) := by
  rw [WorkflowState.tasksOf_eq]
  unfold deadRows WorkflowState.nodesOf
  induction s.base.nodes.filter (·.workflow = w) with
  | nil => exact .slnil
  | cons n ns ih =>
    rw [List.filterMap_cons]
    split
    · exact ih.cons _
    · next d hd =>
      have htask : d.task = n.task := by
        split at hd
        · obtain ⟨-, hd⟩ := Option.ite_none_right_eq_some.mp hd
          obtain rfl := Option.some.inj hd
          rfl
        · cases hd
      rw [List.map_cons, List.map_cons, htask]
      exact ih.cons_cons _

theorem mem_deadRows {d : DeadRow} (h : d ∈ s.deadRows w) : d.status.RetryableDead := by
  obtain ⟨n, -, hd⟩ := List.mem_filterMap.mp h
  split at hd
  · obtain ⟨hdead, hd⟩ := Option.ite_none_right_eq_some.mp hd
    obtain rfl := Option.some.inj hd
    exact hdead
  · cases hd

theorem calls_setCall (s : CompletingState) (x : ℕ) (call : CompletionCall) :
    (s.setCall x call).calls x = call := Function.update_self ..

/-- Where a call that `x` is in stands after a step. -/
def Stands (s : CompletingState) (x : ℕ) (call : CompletionCall) : Prop :=
  ∀ w i stage, call = .completing w i stage → s.StageOk x w stage

theorem Stands.congr {call : CompletionCall} (hc : s.calls x = call) (h : s.Stands x call) :
    s.Stands x (s.calls x) := hc ▸ h

theorem stands_idle : s.Stands x .idle := fun _ _ _ h => by cases h

theorem Stands.of_ok (h : s.StageOk x w stage) : s.Stands x (.completing w i stage) := by
  intro w' i' stage' hc
  cases hc
  exact h

/-- Each statement of the call up to its locks. -/
theorem stands_of_stepLock (hi : s.Inv) (h : s.stepLock a = some s') (hx : a.party = some x) :
    s'.Stands x (s'.calls x) := by
  cases a with
  | win y =>
    cases hx
    simp only [stepLock] at h
    split at h
    · next w i hc =>
      split at h
      · next f hf =>
        split_ifs at h with hst hfree
        · obtain rfl := Option.some.inj h
          refine .congr (Function.update_self ..) (.of_ok ?_)
          exact ⟨f, hf, hst, Function.update_self ..⟩
        · obtain rfl := Option.some.inj h
          exact .congr (Function.update_self ..) stands_idle
      · obtain rfl := Option.some.inj h
        exact .congr (Function.update_self ..) stands_idle
    · cases h
  | readDead y =>
    cases hx
    simp only [stepLock] at h
    split at h
    · next w i hc =>
      obtain rfl := Option.some.inj h
      have hsub := deadRows_tasks s w
      rw [calls_setCall]
      refine .of_ok ⟨hi.stages x w i _ hc, hsub.nodup (hi.counts.nodup w), fun _ hd => hd,
        fun d hd => ⟨?_, mem_deadRows hd⟩, fun d hd => .inl hd, fun d hd => by cases hd⟩
      exact hsub.subset (List.mem_map_of_mem hd)
    · cases h
  | lockDead y t =>
    cases hx
    simp only [stepLock] at h
    split at h
    · next w i dead unlocked gone hc =>
      obtain ⟨hheld, hlocking⟩ := hi.stages x w i _ hc
      split at h
      · next d hd =>
        have htask : d.task = t := by simpa using List.find?_some hd
        have hmem : d ∈ dead := hlocking.read (List.mem_of_find?_eq_some hd)
        have herase : ∀ e ∈ unlocked, e = d ∨ e ∈ unlocked.erase d := by
          intro e he
          by_cases hed : e = d
          · exact .inl hed
          · exact .inr ((List.mem_erase_of_ne hed).mpr he)
        have hread : unlocked.erase d ⊆ dead :=
          fun e he => hlocking.read (List.mem_of_mem_erase he)
        split at h
        · next hrow =>
          obtain rfl := Option.some.inj h
          have hnone : s.base.rows d.task = none := by
            rw [htask]
            exact Option.map_eq_none_iff.mp hrow
          rw [calls_setCall]
          refine .of_ok ⟨hheld, hlocking.nodup, hread, hlocking.ofNodes, fun e he => ?_,
            fun e he => ?_⟩
          · rcases hlocking.each e he with hun | hgone | hlocked
            · rcases herase e hun with rfl | hrest
              · exact .inr (.inl (by simp))
              · exact .inl hrest
            · exact .inr (.inl (by simp [hgone]))
            · exact .inr (.inr hlocked)
          · rcases List.mem_append.mp he with he | he
            · exact hlocking.pruned e he
            · rw [List.mem_singleton.mp he]
              exact ⟨hmem, hnone⟩
        · next r hrow =>
          split_ifs at h with hfree hsame
          · obtain rfl := Option.some.inj h
            exact .congr (Function.update_self ..) stands_idle
          · obtain rfl := Option.some.inj h
            refine .congr (Function.update_self ..) (.of_ok ?_)
            refine ⟨hheld, hlocking.nodup, hread, hlocking.ofNodes, fun e he => ?_,
              hlocking.pruned⟩
            rcases hlocking.each e he with hun | hgone | hlocked
            · rcases herase e hun with rfl | hrest
              · refine .inr (.inr ⟨?_, ?_⟩)
                · rw [htask]
                  exact Function.update_self ..
                · rw [htask]
                  exact hrow.trans (congrArg some (not_not.mp hsame))
              · exact .inl hrest
            · exact .inr (.inl hgone)
            · refine .inr (.inr ⟨?_, hlocked.2⟩)
              by_cases het : e.task = t
              · rw [het]
                exact Function.update_self ..
              · exact (Function.update_of_ne het ..).trans hlocked.1
      · cases h
    · cases h
  | _ =>
    simp only [stepLock] at h
    repeat' split at h
    all_goals cases h
    all_goals cases hx
    all_goals rw [calls_setCall]
    all_goals first
      | exact stands_idle
      | exact .of_ok trivial

/-- Each statement of the call past its locks. -/
theorem stands_of_stepComplete (hreach : completingSystem.Reachable s) (hi : s.Inv)
    (hs : s.step a = some s') (h : s.stepComplete a = some s') (hx : a.party = some x) :
    s'.Stands x (s'.calls x) := by
  cases a with
  | classify y =>
    cases hx
    simp only [stepComplete] at h
    split at h
    · next w i dead gone hc =>
      obtain ⟨hheld, hlocking⟩ := hi.stages x w i _ hc
      split_ifs at h with hbad
      · obtain rfl := Option.some.inj h
        exact .congr (Function.update_self ..) stands_idle
      · obtain rfl := Option.some.inj h
        push Not at hbad
        obtain ⟨hpending, hrepair, hdead⟩ := hbad
        have hwithin := Within.one (x := x) (w := w) hs (by rw [hc]; rfl)
          (by rw [calls_setCall]; rfl)
        have hgone : ∀ d ∈ gone, d.status.RetryableDead ∧ d.task ∈ s.base.tasksOf w ∧
            s.base.rows d.task = none := by
          intro d hd
          obtain ⟨hmem, hnone⟩ := hlocking.pruned d hd
          obtain ⟨htask, hst⟩ := hlocking.ofNodes d hmem
          exact ⟨hst, htask, hnone⟩
        have hloose := hlocking.loose hpending hdead
        refine .congr (Function.update_self ..) (.of_ok ⟨hheld, s, ?_⟩)
        exact ⟨hreach, hwithin, rfl, rfl, rfl, rfl, hpending, hrepair, hgone, hloose⟩
    · cases h
  | readRow y =>
    cases hx
    simp only [stepComplete] at h
    split at h
    · next w i reads hc =>
      obtain ⟨hheld, t, ht⟩ := hi.stages x w i _ hc
      obtain ⟨f₀, hf₀, hst, hown⟩ := id hheld
      have htotal := hi.counts.total w f₀ hf₀ (by simp [hst])
      have hcount := hi.counts.count w f₀ hf₀ (by simp [hst])
      split at h
      · next f hf =>
        obtain rfl := Option.some.inj (hf₀.symm.trans hf)
        split at h
        · next total htot =>
          obtain rfl := Option.some.inj h
          have hlength : total = (s.base.tasksOf w).length :=
            (Option.some.inj (htot.symm.trans htotal)).trans hcount
          refine .congr (Function.update_self ..) (.of_ok ⟨hheld, ⟨t, ?_⟩, ?_⟩)
          · exact ht.advance hs rfl rfl (calls_setCall ..) rfl
          · exact ⟨rfl, hlength, rfl, by simp, by simp⟩
        · next htot =>
          rw [htot] at htotal
          cases htotal
      · cases h
    · cases h
  | countLive y =>
    cases hx
    simp only [stepComplete] at h
    split at h
    · next w i reads row hc => exact (hi.stages x w i _ hc).elim
    · cases h
  | sendComplete y task =>
    cases hx
    simp only [stepComplete] at h
    split at h
    · next w i reads row total fields hc =>
      obtain ⟨hheld, ⟨t, ht⟩, hplan⟩ := hi.stages x w i _ hc
      split_ifs at h with hpath hfresh
      · obtain rfl := Option.some.inj h
        refine .congr (Function.update_self ..) (.of_ok ⟨hheld, ⟨t, ?_⟩, ?_⟩)
        · exact ht.advance hs rfl rfl (calls_setCall ..) rfl
        · refine ⟨hplan.row, hplan.total, hplan.noTotal, ?_, hplan.success⟩
          rw [hplan.complete]
          simp [hpath]
      · obtain rfl := Option.some.inj h
        refine .congr (Function.update_self ..) (.of_ok ⟨hheld, ⟨t, ?_⟩, ?_⟩)
        · exact ht.advance hs rfl rfl (calls_setCall ..) rfl
        · exact ⟨hplan.row, hplan.total, hplan.noTotal, by simp [hpath], hplan.success⟩
    · cases h
  | sendSuccess y task =>
    cases hx
    simp only [stepComplete] at h
    split at h
    · next w i reads row total fields hc =>
      obtain ⟨hheld, ⟨t, ht⟩, hplan⟩ := hi.stages x w i _ hc
      split_ifs at h with hdue hfresh
      · obtain rfl := Option.some.inj h
        obtain ⟨hfailed, hunattributed, hpath⟩ := hdue
        have hclean : Clean reads total ∧ row.onSuccessPath ≠ "" := ⟨⟨hfailed, hunattributed⟩, hpath⟩
        refine .congr (Function.update_self ..) (.of_ok ⟨hheld, ⟨t, ?_⟩, ?_⟩)
        · exact ht.advance hs rfl rfl (calls_setCall ..) rfl
        · exact ⟨hplan.row, hplan.total, hplan.noTotal, hplan.complete, by simp [hclean]⟩
      · obtain rfl := Option.some.inj h
        have hnot : ¬ (Clean reads total ∧ row.onSuccessPath ≠ "") := by
          rintro ⟨⟨hfailed, hunattributed⟩, hpath⟩
          exact hdue ⟨hfailed, hunattributed, hpath⟩
        refine .congr (Function.update_self ..) (.of_ok ⟨hheld, ⟨t, ?_⟩, ?_⟩)
        · exact ht.advance hs rfl rfl (calls_setCall ..) rfl
        · refine ⟨hplan.row, hplan.total, hplan.noTotal, hplan.complete, ?_⟩
          rw [hplan.success]
          simp only [false_iff]
          exact hnot
    · cases h
  | store y =>
    cases hx
    simp only [stepComplete] at h
    split at h
    · next w i reads row total fields hc =>
      obtain ⟨hheld, ⟨t, ht⟩, hplan⟩ := hi.stages x w i _ hc
      obtain rfl := Option.some.inj h
      refine .congr (Function.update_self ..) (.of_ok ⟨hheld, ⟨t, ?_⟩, row, total, rfl, ?_⟩)
      · exact ht.advance hs rfl rfl (calls_setCall ..) rfl
      · exact hplan.congr rfl rfl
    · cases h
  | commit y =>
    cases hx
    simp only [stepComplete] at h
    split at h
    · obtain ⟨f, -, rfl⟩ := Option.map_eq_some_iff.mp h
      exact .congr (Function.update_self ..) stands_idle
    · cases h
  | fail y =>
    cases hx
    simp only [stepComplete] at h
    split_ifs at h
    obtain rfl := Option.some.inj h
    exact .congr (Function.update_self ..) stands_idle
  | lose y conflict =>
    cases hx
    obtain ⟨-, h⟩ := Option.ite_none_right_eq_some.mp h
    obtain rfl := Option.some.inj h
    refine .congr (Function.update_self ..) ?_
    cases hr : conflict.bind (s.calls x).reissued with
    | none => exact stands_idle
    | some call =>
      obtain ⟨e, -, he⟩ := Option.bind_eq_some_iff.mp hr
      unfold CompletionCall.reissued at he
      split at he
      · obtain ⟨-, he⟩ := Option.ite_none_right_eq_some.mp he
        obtain rfl := Option.some.inj he
        exact .of_ok trivial
      · cases he
  | _ => cases h

theorem stands_step (hreach : completingSystem.Reachable s) (hi : s.Inv) (h : s.step a = some s')
    (x : ℕ) : s'.Stands x (s'.calls x) := by
  by_cases hx : a.party = some x
  · rcases step_cases h with h' | h' | h'
    · cases a with
      | other b =>
        obtain ⟨⟨-, hidle, -⟩, h'⟩ := Option.ite_none_right_eq_some.mp h'
        obtain ⟨base, -, rfl⟩ := Option.map_eq_some_iff.mp h'
        exact .congr (hidle x hx) stands_idle
      | create w onComplete onSuccess => cases hx
      | _ => cases h'
    · exact stands_of_stepLock hi h' hx
    · exact stands_of_stepComplete hreach hi h h' hx
  · intro w i stage hc
    have hcall : s.calls x = .completing w i stage := (calls_of_step h hx).symm.trans hc
    exact (hi.stages x w i stage hcall).foreign hi h hx hcall

end CompletingState

section Runs

variable {s s' : CompletingState} {a : CompletingAction} {x w : ℕ}

theorem CompletionFields.roles (fields : CompletionFields) (w : ℕ) :
    ((fields.callbacks w).map (·.role)).Nodup ∧
      (.onComplete ∈ (fields.callbacks w).map (·.role) ↔ fields.callbackTaskId ≠ none) ∧
      (.onSuccess ∈ (fields.callbacks w).map (·.role) ↔ fields.successTaskId ≠ none) ∧
      ∀ k ∈ fields.callbacks w, k.workflow = w := by
  obtain ⟨total, complete, success⟩ := fields
  cases complete <;> cases success <;> simp [callbacks]

namespace CompletingState

theorem inv_of_start (h : s.Start) : s.Inv := by
  obtain ⟨hbase, hcalls, hcallbacks, -⟩ := h
  refine ⟨WorkflowState.order_of_start hbase, WorkflowState.record_of_start hbase,
    WorkflowState.count_of_start hbase, ?_, ?_, fun x w i stage hc => ?_⟩
  · simp [hcallbacks]
  · simp [hcallbacks]
  · rw [hcalls x] at hc
    cases hc

theorem Inv.callbacks_eq_nil (hi : s.Inv) {f : OxpullWorkflow} (hf : s.base.workflows w = some f)
    (hst : f.status ≠ .complete) : s.callbacks.filter (·.workflow = w) = [] := by
  apply List.filter_eq_nil_iff.mpr
  intro k hk hw
  rw [decide_eq_true_eq] at hw
  obtain ⟨g, hg, hc⟩ := hi.early k hk
  rw [hw, hf] at hg
  obtain rfl := Option.some.inj hg
  exact hst hc

theorem Effect.callbacks (h : Effect s s' a) : s'.callbacks = s.callbacks ∨
    ∃ x w i reads row fields f, a = .commit x ∧
      s.calls x = .completing w i (.stored reads row fields) ∧ s.base.workflows w = some f ∧
      s' = s.committed x w f row fields := by
  cases h with
  | same _ _ hk => exact .inl hk
  | other _ _ _ _ _ _ hk => exact .inl hk
  | create _ _ _ _ _ hk => exact .inl hk
  | locks _ _ _ _ _ _ _ _ hk => exact .inl hk
  | commit x w i reads row fields f ha hcall hf hs =>
    exact .inr ⟨x, w, i, reads, row, fields, f, ha, hcall, hf, hs⟩

theorem step_inv (hreach : completingSystem.Reachable s) (hi : s.Inv) (h : s.step a = some s') :
    s'.Inv := by
  obtain ⟨horder, hrecords, hcounts⟩ := base_step hi h
  obtain ⟨c, hturn, -⟩ := hi.turn h
  have hstages := stands_step hreach hi h
  rcases (step_effect h).callbacks with hsame | ⟨x, w, i, reads, row, fields, f, -, hcall, hf, hs⟩
  · refine ⟨horder, hrecords, hcounts, ?_, ?_, hstages⟩
    · rw [hsame]
      exact hi.roles
    · rw [hsame]
      exact fun k hk => hturn.completed (hi.early k hk)
  · obtain ⟨hst, -⟩ := hi.stored hcall hf
    have hnil := hi.callbacks_eq_nil hf (by simp [hst])
    obtain ⟨hroles, -, -, hown⟩ := fields.roles w
    have hnew : s'.callbacks = s.callbacks ++ fields.callbacks w := by rw [hs]; rfl
    have hdone : s'.base.Completed w := by
      rw [hs]
      exact ⟨_, Function.update_self .., rfl⟩
    refine ⟨horder, hrecords, hcounts, fun v => ?_, fun k hk => ?_, hstages⟩
    · rw [hnew, List.filter_append]
      by_cases hv : v = w
      · subst hv
        rw [hnil, List.nil_append, List.filter_eq_self.mpr fun k hk => by simpa using hown k hk]
        exact hroles
      · have hnone : (fields.callbacks w).filter (·.workflow = v) = [] := by
          apply List.filter_eq_nil_iff.mpr
          intro k hk
          simpa [hown k hk] using Ne.symm hv
        rw [hnone, List.append_nil]
        exact hi.roles v
    · rw [hnew] at hk
      rcases List.mem_append.mp hk with hk | hk
      · exact hturn.completed (hi.early k hk)
      · exact hown k hk ▸ hdone

theorem reachable_inv (h : completingSystem.Reachable s) : s.Inv := by
  have hboth : completingSystem.Reachable s ∧ s.Inv := by
    induction h with
    | init hs => exact ⟨.init hs, inv_of_start hs⟩
    | step _ _ hs ih => exact ⟨ih.1.step hs, step_inv ih.1 ih.2 hs⟩
  exact hboth.2

/-- The callbacks enqueued for a workflow. -/
def rolesOf (s : CompletingState) (w : ℕ) : List CallbackRole :=
  (s.callbacks.filter (·.workflow = w)).map (·.role)

/-- The task's row is there and not settled. -/
def PendingTask (s : WorkflowState) (u : TaskId) : Prop := ∃ st ∈ s.status u, ¬ st.Settled

instance (s : WorkflowState) (u : TaskId) : Decidable (PendingTask s u) :=
  inferInstanceAs (Decidable (∃ st ∈ s.status u, ¬ st.Settled))

theorem settled_of_resolved {s : WorkflowState} {u : TaskId} (h : s.Resolved x u) :
    ¬ PendingTask s u := by
  rintro ⟨st, hst, hnot⟩
  obtain ⟨r, hr, rfl⟩ := Option.map_eq_some_iff.mp hst
  rcases h r hr with (hdone | hdone) | ⟨-, hdead | hdead⟩
  · exact hnot (.inl hdone)
  · exact hnot (.inr (.inr (.inr hdone)))
  · exact hnot (.inr (.inl hdead))
  · exact hnot (.inr (.inr (.inl hdead)))

theorem Counted.pending_le {t : CompletingState} {reads : CompletionReads}
    (h : Counted x w reads t s) (hnodup : (s.base.tasksOf w).Nodup) :
    (s.base.tasksOf w).countP (PendingTask s.base ·) ≤ reads.gone.length := by
  obtain ⟨loose, hlength, hloose⟩ := h.loose
  have hsub : (s.base.tasksOf w).filter (PendingTask s.base ·) ⊆ loose := by
    intro u hu
    obtain ⟨hmem, hpending⟩ := List.mem_filter.mp hu
    rcases hloose u hmem with hin | hres
    · exact hin
    · exact absurd (by simpa using hpending) (settled_of_resolved hres)
  have hle := ((hnodup.filter _).subperm hsub).length_le
  rw [← List.countP_eq_length_filter] at hle
  exact hle.trans hlength

/-- What a completion commits, and what it stands on. -/
structure Completes (s s' : CompletingState) (x w : ℕ) (reads : CompletionReads)
    (t : CompletingState) : Prop where
  sealed : ∃ f, s.base.workflows w = some f ∧ f.status = .sealed
  reachable : completingSystem.Reachable t
  within : Within x w t s
  nodes : t.base.tasksOf w = s.base.tasksOf w
  settled : ∀ u ∈ s.base.tasksOf w, ∀ st, t.base.status u = some st → st.Settled
  recorded : ∀ n ∈ t.base.nodesOf w, n.kind (t.base.row n.task) ≠ .repair
  onComplete : .onComplete ∈ s'.rolesOf w ↔ (s.columns w).onCompletePath ≠ ""
  onSuccess : .onSuccess ∈ s'.rolesOf w ↔ (s.columns w).onSuccessPath ≠ "" ∧
    ∀ n ∈ t.base.nodesOf w, n.settledAs (t.base.row n.task) = some .successful
  succeeded : .onSuccess ∈ s'.rolesOf w → ∀ u ∈ s.base.tasksOf w,
    u ∈ t.base.succeeded ∧ ∀ st, t.base.status u = some st → st = .successful
  failed : (s'.columns w).failedCount = some (t.base.classify w).failed
  cancelled : (s'.columns w).cancelledCount = some (t.base.classify w).discardedRows
  completions : (s.columns w).completions <+: (s'.columns w).completions ∧
    (s.columns w).generation ∈ (s'.columns w).completions.map (·.1)
  gone : ∀ d ∈ reads.gone,
    d.status.RetryableDead ∧ d.task ∈ s.base.tasksOf w ∧ s.base.rows d.task = none
  pending : (s.base.tasksOf w).countP (PendingTask s.base ·) ≤ reads.gone.length

/-- A node that counts as succeeded did, and its row says so while it is there. -/
theorem Inv.succeeded {t : CompletingState} (hi : t.Inv) {n : OxpullWorkflowNode}
    (hn : n ∈ t.base.nodes) (h : n.settledAs (t.base.row n.task) = some .successful) :
    n.task ∈ t.base.succeeded ∧ ∀ st, t.base.status n.task = some st → st = .successful := by
  have hrecord : n.outcome = some .successful → n.task ∈ t.base.succeeded ∧
      ∀ st, t.base.status n.task = some st → st = .successful := by
    intro hout
    refine ⟨hi.order.records n hn hout, fun st hst => ?_⟩
    obtain ⟨e, -, hrow, -⟩ := hi.records.won n hn hout
    obtain ⟨r, hr, rfl⟩ := Option.map_eq_some_iff.mp hst
    exact (hrow _ r.row.leaseEpoch (by simp [WorkflowState.row, hr])).1
  cases hrow : t.base.row n.task with
  | none =>
    rw [hrow] at h
    exact hrecord h
  | some q =>
    obtain ⟨st, e⟩ := q
    have hstatus := WorkflowState.status_of_row hrow
    rw [hrow] at h
    unfold OxpullWorkflowNode.settledAs at h
    dsimp only at h
    split_ifs at h
    · obtain rfl := Option.some.inj h
      refine ⟨hi.order.won _ hstatus, fun st' hst' => ?_⟩
      exact Option.some.inj (hst'.symm.trans hstatus)
    · exact hrecord h

theorem stored_completions (row : CompletionRow) (c : Classes) (total : ℕ)
    (fields : CompletionFields) :
    row.completions <+: (row.stored c total fields).completions ∧
      row.generation ∈ (row.stored c total fields).completions.map (·.1) := by
  unfold CompletionRow.stored
  dsimp only
  split_ifs with hold
  · exact ⟨List.prefix_rfl, hold⟩
  · exact ⟨List.prefix_append .., by simp⟩

theorem completes_of_step (h : completingSystem.Reachable s) (hs : s.step a = some s')
    (hdone : s'.base.Completed w) (hnot : ¬ s.base.Completed w) :
    ∃ x i reads row fields t, a = .commit x ∧
      s.calls x = .completing w i (.stored reads row fields) ∧ Completes s s' x w reads t := by
  have hi := reachable_inv h
  obtain ⟨c, hturn, hcommit⟩ := hi.turn hs
  have hc : c = some w := by
    by_contra hne
    obtain ⟨g, hg, hst⟩ := hdone
    have hold : ∀ f, s.base.workflows w = some f → f.status ≠ .complete :=
      fun f hf he => hnot ⟨f, hf, he⟩
    cases hturn.tables with
    | still _ hw _ => exact hold g (hw ▸ hg) hst
    | retired _ _ _ _ _ _ hw _ _ => exact hold g (hw ▸ hg) hst
    | created v _ _ _ hw =>
      rw [hw, Function.update_apply] at hg
      split_ifs at hg
      · obtain rfl := Option.some.inj hg
        cases hst
      · exact hold g hg hst
    | moved v f f' _ _ hf hw hmove =>
      rw [hw, Function.update_apply] at hg
      split_ifs at hg with hv
      · obtain rfl := Option.some.inj hg
        subst hv
        rcases hmove with ⟨-, rfl⟩ | ⟨-, -, hc⟩ | ⟨hf', -⟩
        · cases hst
        · exact hne hc
        · exact hold f hf hf'
      · exact hold g hg hst
    | added v f task _ _ hf hopen _ _ hw =>
      rw [hw, Function.update_apply] at hg
      split_ifs at hg
      · obtain rfl := Option.some.inj hg
        rw [show f.status = .complete from hst] at hopen
        cases hopen
      · exact hold g hg hst
  obtain ⟨x, i, reads, row, fields, ha, hcall⟩ := hcommit w hc
  obtain ⟨hheld, ⟨t, ht⟩, row₀, total, hrow, hplan⟩ := hi.stages x w i _ hcall
  obtain ⟨f, hf, hst, -⟩ := hheld
  have hstep : s.stepComplete a = some s' := by
    rcases step_cases hs with hs | hs | hs
    · subst ha
      cases hs
    · subst ha
      cases hs
    · exact hs
  have hs' : s' = s.committed x w f row fields := by
    subst ha
    simp only [stepComplete, hcall, hf, Option.map_some, Option.some.injEq] at hstep
    exact hstep.symm
  have hnil := hi.callbacks_eq_nil hf (by simp [hst])
  obtain ⟨-, hcomplete, hsuccess, hown⟩ := fields.roles w
  have hroles : s'.rolesOf w = (fields.callbacks w).map (·.role) := by
    rw [hs']
    unfold rolesOf
    show ((s.callbacks ++ fields.callbacks w).filter _).map _ = _
    rw [List.filter_append, hnil, List.nil_append,
      List.filter_eq_self.mpr fun k hk => by simpa using hown k hk]
  have hcolumns : s'.columns w = row := by
    rw [hs']
    exact Function.update_self ..
  have hclean := WorkflowState.clean_iff ht.pending
  have hlength : total = (t.base.nodesOf w).length := by
    rw [hplan.total, ht.tasks, WorkflowState.tasksOf_eq, List.length_map]
    rfl
  have honSuccess : .onSuccess ∈ s'.rolesOf w ↔ (s.columns w).onSuccessPath ≠ "" ∧
      ∀ n ∈ t.base.nodesOf w, n.settledAs (t.base.row n.task) = some .successful := by
    rw [hroles, hsuccess, hplan.success, ← hclean, hplan.row]
    unfold Clean
    rw [ht.classes, hlength]
    exact and_comm
  refine ⟨x, i, reads, row, fields, t, ha, hcall, ⟨f, hf, hst⟩, ht.reachable, ht.within,
    ht.tasks.symm, fun u hu st hu' => ?_, fun n hn => ?_, ?_, honSuccess, fun hsent u hu => ?_, ?_,
    ?_, ?_, ht.gone, ht.pending_le (hi.counts.nodup w)⟩
  · rw [ht.tasks] at hu
    obtain ⟨n, hn, hw, rfl⟩ := WorkflowState.mem_tasksOf.mp hu
    have hnode : n ∈ t.base.nodesOf w := List.mem_filter.mpr ⟨hn, by simpa using hw⟩
    exact WorkflowState.settled_of_pending ht.pending hnode hu'
  · have hrepair := ht.repair
    rw [WorkflowState.classify_eq] at hrepair
    have hkind := List.countP_eq_zero.mp hrepair _ (List.mem_map_of_mem hn)
    rw [decide_eq_true_eq] at hkind
    exact hkind
  · rw [hroles, hcomplete, hplan.complete, hplan.row]
  · rw [ht.tasks] at hu
    obtain ⟨n, hn, hw, rfl⟩ := WorkflowState.mem_tasksOf.mp hu
    have hnode : n ∈ t.base.nodesOf w := List.mem_filter.mpr ⟨hn, by simpa using hw⟩
    exact (reachable_inv ht.reachable).succeeded hn ((honSuccess.mp hsent).2 n hnode)
  · rw [hcolumns, hrow, ← ht.classes]
    rfl
  · rw [hcolumns, hrow, ← ht.classes]
    rfl
  · rw [hcolumns, hrow, hplan.row]
    exact stored_completions ..

/-- The callbacks of a workflow that no commit of this step completes. -/
theorem callbacks_of_step (h : s.step a = some s')
    (ha : ∀ y i reads row fields, a = .commit y →
      s.calls y = .completing w i (.stored reads row fields) → False) :
    s'.callbacks.filter (·.workflow = w) = s.callbacks.filter (·.workflow = w) := by
  rcases (step_effect h).callbacks with hsame | ⟨y, v, i, reads, row, fields, g, hy, hcall, -, hs'⟩
  · rw [hsame]
  · have hv : v ≠ w := by
      rintro rfl
      exact ha y i reads row fields hy hcall
    obtain ⟨-, -, -, hkey⟩ := fields.roles v
    have hnone : (fields.callbacks v).filter (·.workflow = w) = [] := by
      apply List.filter_eq_nil_iff.mpr
      intro k hk
      simpa [hkey k hk] using hv
    have hlist : s'.callbacks = s.callbacks ++ fields.callbacks v := by rw [hs']; rfl
    rw [hlist, List.filter_append, hnone, List.append_nil]

/-- Until it commits, a completion leaves its workflow SEALED, with no callback enqueued. -/
theorem Inv.uncompleted (hi : s.Inv) (hwon : (s.calls x).won = some w) :
    (∃ f, s.base.workflows w = some f ∧ f.status = .sealed) ∧ s.rolesOf w = [] ∧
      ∀ a s', s.step a = some s' → a ≠ .commit x →
        s'.base.workflows w = s.base.workflows w ∧ s'.columns w = s.columns w ∧
          s'.rolesOf w = [] := by
  have hcall : ∃ i stage, s.calls x = .completing w i stage := by
    cases hc : s.calls x with
    | idle =>
      rw [hc] at hwon
      cases hwon
    | completing v i stage =>
      rw [hc] at hwon
      cases stage <;> cases hwon <;> exact ⟨_, _, rfl⟩
  obtain ⟨i, stage, hc⟩ := hcall
  have hheld := (hi.stages x w i stage hc).held (hc ▸ hwon)
  obtain ⟨f, hf, hst, hown⟩ := id hheld
  have hnil : s.rolesOf w = [] := by
    unfold rolesOf
    rw [hi.callbacks_eq_nil hf (by simp [hst])]
    rfl
  refine ⟨⟨f, hf, hst⟩, hnil, fun a s' hs ha => ?_⟩
  have hother : ∀ y j reads row fields, a = .commit y →
      s.calls y = .completing w j (.stored reads row fields) → False := by
    intro y j reads row fields hcommit hcally
    obtain ⟨-, hown', -⟩ := hi.stored hcally hf
    have hxy : y = x := Option.some.inj (hown'.symm.trans hown)
    exact ha (hxy ▸ hcommit)
  obtain ⟨c, hturn, hcommit⟩ := hi.turn hs
  refine ⟨?_, columns_of_step hs (by simp [hf]) hother, ?_⟩
  · rcases hturn.sealed hf hst with hsame | ⟨hcw, -⟩
    · exact hsame.trans hf.symm
    · obtain ⟨y, j, reads, row, fields, hy, hcally⟩ := hcommit w hcw
      exact (hother y j reads row fields hy hcally).elim
  · unfold rolesOf at hnil ⊢
    rw [callbacks_of_step hs hother]
    exact hnil

/-- What every step leaves of a COMPLETE workflow. -/
structure Stays (s s' : CompletingState) (w : ℕ) : Prop where
  row : ∃ f f', s.base.workflows w = some f ∧ s'.base.workflows w = some f' ∧
    f'.status = .complete ∧ f'.nodeCount = f.nodeCount ∧ f'.totalCount = f.totalCount
  columns : s'.columns w = s.columns w
  callbacks : s'.callbacks.filter (·.workflow = w) = s.callbacks.filter (·.workflow = w)

theorem Inv.stays (hi : s.Inv) (h : s.step a = some s') (hdone : s.base.Completed w) :
    Stays s s' w := by
  obtain ⟨f, hf, hst⟩ := hdone
  obtain ⟨c, hturn, -⟩ := hi.turn h
  obtain ⟨retired, hf'⟩ := hturn.complete_row hf hst
  have hother : ∀ y j reads row fields, a = .commit y →
      s.calls y = .completing w j (.stored reads row fields) → False := by
    intro y j reads row fields _ hcally
    obtain ⟨hsealed, -⟩ := hi.stored hcally hf
    rw [hst] at hsealed
    cases hsealed
  exact ⟨⟨f, _, hf, hf', hst, rfl, rfl⟩, columns_of_step h (by simp [hf]) hother,
    callbacks_of_step h hother⟩

end CompletingState

end Runs

/-- What a workflow keeps over every run: the total of its nodes from `seal` on, which no node joins
and only the retirement of a COMPLETE workflow leaves; that it completes once, with each of its
callbacks at most once and only in that step; that it completes only where, since the
compare-and-set, nothing of it was pending and every record was written, with `on_success` exactly
where every node settled as SUCCESSFUL; that a node is pending at the commit only in place of one
whose dead row was pruned before its lock; and that a completion which does not commit leaves the
workflow as it was. -/
theorem workflow_completion {s : CompletingState} (h : completingSystem.Reachable s) :
    (∀ w f, s.base.workflows w = some f →
      (f.status ≠ .complete → f.nodeCount = (s.base.nodesOf w).length) ∧
      (f.status ≠ .opened → f.totalCount = some f.nodeCount)) ∧
    (∀ w, (s.rolesOf w).Nodup ∧ (s.rolesOf w ≠ [] → s.base.Completed w)) ∧
    (∀ a s', completingSystem.step s a = some s' →
      (∀ w f, s.base.workflows w = some f → f.status ≠ .opened →
        (s'.base.tasksOf w).Sublist (s.base.tasksOf w)) ∧
      (∀ w, s.base.Completed w → CompletingState.Stays s s' w) ∧
      ∀ w, s'.base.Completed w → ¬ s.base.Completed w →
        ∃ x i reads row fields t, a = .commit x ∧
          s.calls x = .completing w i (.stored reads row fields) ∧
          CompletingState.Completes s s' x w reads t) ∧
    (∀ x w, (s.calls x).won = some w →
      (∃ f, s.base.workflows w = some f ∧ f.status = .sealed) ∧ s.rolesOf w = [] ∧
      ∀ a s', completingSystem.step s a = some s' → a ≠ .commit x →
        s'.base.workflows w = s.base.workflows w ∧ s'.columns w = s.columns w ∧
          s'.rolesOf w = []) := by
  have hi := CompletingState.reachable_inv h
  refine ⟨fun w f hf => ⟨fun hst => ?_, hi.counts.total w f hf⟩, fun w => ⟨hi.roles w, fun hne => ?_⟩,
    fun a s' hs => ⟨fun w f hf hst => ?_, fun w => hi.stays hs,
      fun w => CompletingState.completes_of_step h hs⟩, fun x w hwon => hi.uncompleted hwon⟩
  · have hcount := hi.counts.count w f hf hst
    rw [WorkflowState.tasksOf_eq, List.length_map] at hcount
    exact hcount
  · obtain ⟨role, hrole⟩ := List.exists_mem_of_ne_nil _ hne
    obtain ⟨k, hk, -⟩ := List.mem_map.mp hrole
    obtain ⟨hmem, hw⟩ := List.mem_filter.mp hk
    rw [decide_eq_true_eq] at hw
    exact hw ▸ hi.early k hmem
  · obtain ⟨c, hturn, -⟩ := hi.turn hs
    exact hturn.tasksOf_sublist hf hst

def noCompletions : CompletingState :=
  ⟨noWorkflow, fun _ => ⟨"", "", 0, none, none, none, none, []⟩, fun _ => .idle, [], []⟩

/-- A claim of the task, and its one attempt fails. -/
def failsOnce (task : TaskId) : List CompletingAction :=
  [.other (.claim task (.claimPostgresql (soloWorker "w1") 5 5)),
    .other (.outcome task ⟨1, 1⟩ (heldAttempt [] 1 1) 6 (.raised ⟨"E", ""⟩ none))]

/-- "a" and "b" fail. "b" is retried, and fails again after the completion has read the dead rows;
"a" is pruned before its lock; and "b" is retried once more before the commit. -/
def retriedUnderCompletion : List CompletingAction :=
  [.create 0 "app.tasks.done" "", .other (.startAdd 0 0 "a" []),
    .other (.commitAdd 0 1 oneAttempt 1 0), .other (.startAdd 0 0 "b" []),
    .other (.commitAdd 0 2 oneAttempt 1 0), .other (.sealOnce 0), .other (.clear 1),
    .other (.clear 2)] ++ failsOnce 1 ++ failsOnce 2 ++
  [.complete 3 0, .filter 3, .other (.row 2 .retryMany),
    .other (.claim 2 (.claimPostgresql (soloWorker "w1") 5 5)), .enter 3, .win 3, .readDead 3,
    .other (.pruneTask 1), .lockDead 3 1,
    .other (.outcome 2 ⟨1, 1⟩ (heldAttempt [⟨"E", ""⟩] 2 3) 6 (.raised ⟨"E", ""⟩ none)),
    .classify 3, .readRow 3, .sendComplete 3 7, .sendSuccess 3 8, .store 3,
    .other (.row 2 .retryMany)]

/-- One row is pruned under the completion, and one node is pending at its commit. -/
theorem workflow_completion_retried :
    ∃ s s' x reads t, completingSystem.run noCompletions retriedUnderCompletion = some s ∧
      completingSystem.step s (.commit 3) = some s' ∧
      CompletingState.Completes s s' x 0 reads t ∧
      (s.base.tasksOf 0).countP (CompletingState.PendingTask s.base ·) = 1 := by
  have hrun : ((completingSystem.run noCompletions retriedUnderCompletion).bind fun s =>
      (completingSystem.step s (.commit 3)).map fun s' =>
        ((s.base.workflows 0).map (·.status), (s'.base.workflows 0).map (·.status),
          (s.base.tasksOf 0).countP (CompletingState.PendingTask s.base ·))) =
      some (some .sealed, some .complete, 1) := by decide +kernel
  obtain ⟨s, hs, hstep⟩ := Option.bind_eq_some_iff.mp hrun
  obtain ⟨s', hs', hfacts⟩ := Option.map_eq_some_iff.mp hstep
  simp only [Prod.mk.injEq] at hfacts
  obtain ⟨hbefore, hafter, hpending⟩ := hfacts
  have hnot : ¬ s.base.Completed 0 := by
    rintro ⟨f, hf, hst⟩
    rw [hf, Option.map_some, hst] at hbefore
    cases hbefore
  have hreach : completingSystem.Reachable s :=
    .of_run ⟨noWorkflow_start, fun _ => rfl, rfl, rfl⟩ hs
  obtain ⟨-, -, hsteps, -⟩ := workflow_completion hreach
  obtain ⟨x, i, reads, row, fields, t, -, -, hcompletes⟩ :=
    (hsteps _ s' hs').2.2 0 (Option.map_eq_some_iff.mp hafter) hnot
  exact ⟨s, s', x, reads, t, hs, hs', hcompletes, hpending⟩

end DjangoOx
