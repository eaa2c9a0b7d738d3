import DjangoOx.Workflow.LastWord

/-! Whoever writes the outcomes, a row that may still be answered has nothing but LOST on record at
its epoch; and a row is moved by steps of its own alone. -/
namespace DjangoOx

open Machine

/-- The steps that an action may make on the row of `t`. -/
def WorkflowAction.Moves (t : TaskId) (b : RowAction) : WorkflowAction → Prop
  | .claim u c | .row u c => u = t ∧ b = c
  | .outcome u backoff held now ending => u = t ∧ b = .writeOutcome backoff held now ending
  | .releaseMany _ now => ∃ e, b = .release e now
  | .cancelMany _ now => ∃ e, b = .cancelMany e now
  | _ => False

namespace WorkflowState

variable {s s' : WorkflowState} {x : ℕ} {t u : TaskId} {p : WorkflowPass}

/-- The state with no success counted. -/
def uncounted (s : WorkflowState) : WorkflowState := { s with succeeded := [] }

/-- What the records say of their rows, of the successes nothing. -/
def Answerable (s : WorkflowState) : Prop := s.uncounted.LastInv

theorem RecordInv.uncounted (hr : s.RecordInv) : s.uncounted.RecordInv :=
  hr.of_eq rfl rfl rfl fun _ _ h => .inl h

theorem Answerable.unread (hi : s.Answerable) (hp : p.records = []) :
    (s.setPass x p).Answerable :=
  LastInv.unread hi hp

theorem Answerable.hold (hi : s.Answerable) (holder : TaskId → Option ℕ)
    (owner : ℕ → Option ℕ) : Answerable { s with holder := holder, owner := owner } :=
  LastInv.hold hi holder owner

theorem Answerable.putRow (hi : s.Answerable) (hr : s.RecordInv) {r r' : RowState} {a : RowAction}
    (hrow : s.rows t = some r) (ha : r.step a = some r') (hrev : a.IsRevive = false) :
    (s.putRow t r').Answerable :=
  LastInv.write hi hr.uncounted hrow ha hrev

theorem Answerable.recordNodeOutcome (hi : s.Answerable) (hr : s.RecordInv) {st : Status} {e : ℕ}
    (hrow : s.row t = some (st, e)) (hst : st.Settled) :
    (s.recordNodeOutcome t st e).Answerable := by
  have hrec := LastInv.recordNodeOutcome hi hr.uncounted hrow hst
  have hsame : (s.recordNodeOutcome t st e).uncounted =
      s.uncounted.recordNodeOutcome t st e := by
    unfold WorkflowState.recordNodeOutcome WorkflowState.uncounted
    split_ifs <;> first | rfl | contradiction
  unfold Answerable
  rw [hsame]
  exact hrec

theorem Answerable.insertNode (hi : s.Answerable) (hr : s.RecordInv) {w : ℕ} {f : OxpullWorkflow}
    {name : String} {task : TaskId} {new : OxTask} {upstream won : List TaskId}
    (hnew : task ∉ s.used) (hst : new.status = .ready ∨ new.status = .waiting) :
    (s.insertNode w f name task new upstream won).Answerable := by
  have hinsert : (s.uncounted.insertNode w f name task new upstream won).LastInv :=
    LastInv.insertNode hi hr.uncounted hnew hst
  have hne : new.status ≠ .successful := by
    rcases hst with hst | hst <;> simp [hst]
  have hsame : (s.insertNode w f name task new upstream won).uncounted =
      s.uncounted.insertNode w f name task new upstream won := by
    simp [WorkflowState.insertNode, WorkflowState.uncounted, WorkflowState.putRow, hne]
  unfold Answerable
  rw [hsame]
  exact hinsert

theorem Answerable.updateMany (hi : s.Answerable) (hr : s.RecordInv) {pairs : List (TaskId × ℕ)}
    {a : ℕ → RowAction} (hrev : ∀ e, (a e).IsRevive = false) :
    (s.updateMany pairs a).Answerable := by
  have h : (s.updateMany pairs a).Answerable ∧ (s.updateMany pairs a).RecordInv := by
    refine updateMany_induction (P := fun s' => s'.Answerable ∧ s'.RecordInv) s ⟨hi, hr⟩ ?_
    rintro s' ⟨hi', hr'⟩ q -
    rcases update_cases s' q.1 (a q.2) with h | ⟨r, r', hrow, hstep, h⟩
    · rw [h]
      exact ⟨hi', hr'⟩
    · rw [h]
      exact ⟨hi'.putRow hr' hrow hstep (hrev _), hr'.putRow hrow hstep (hrev _)⟩
  exact h.1

theorem Answerable.recordDiscarded (hi : s.Answerable) (hr : s.RecordInv)
    (pairs : List (TaskId × ℕ)) : (s.recordDiscarded pairs).Answerable := by
  have h : (s.recordDiscarded pairs).Answerable ∧ (s.recordDiscarded pairs).RecordInv ∧
      (s.recordDiscarded pairs).rows = s.rows := by
    refine recordDiscarded_induction
      (P := fun s' => s'.Answerable ∧ s'.RecordInv ∧ s'.rows = s.rows) s ⟨hi, hr, rfl⟩ ?_
    rintro s' ⟨hi', hr', hrows⟩ t e hrow
    have hrow' : s'.row t = some (.discarded, e) := by
      unfold row
      rw [hrows]
      exact hrow
    have hdead : Status.discarded.Settled := by decide
    have hrec : (s'.recordNode t .discarded e).Answerable :=
      LastInv.recordNode hi' hr'.uncounted (says_row hr'.uncounted hrow' hdead)
    exact ⟨hrec, hr'.recordNode (hr'.fits_row hrow'), hrows⟩
  exact h.1

theorem step_answerable {a : WorkflowAction} (ho : s.OrderInv) (hr : s.RecordInv)
    (hi : s.Answerable) (h : step s a = some s') : s'.Answerable := by
  cases a with
  | claim u a | row u a =>
    obtain ⟨⟨hkind, -⟩, h⟩ := Option.ite_none_right_eq_some.mp h
    obtain ⟨r', hb, rfl⟩ := Option.map_eq_some_iff.mp h
    obtain ⟨r, hrow, ha⟩ := Option.bind_eq_some_iff.mp hb
    refine hi.putRow hr hrow ha ?_
    cases a <;> first | rfl | cases hkind
  | outcome u b held now ending =>
    obtain ⟨-, h⟩ := Option.ite_none_right_eq_some.mp h
    obtain ⟨r', hb, rfl⟩ := Option.map_eq_some_iff.mp h
    obtain ⟨r, hrow, ha⟩ := Option.bind_eq_some_iff.mp hb
    have hput := hi.putRow hr hrow ha rfl
    have hputR : (s.putRow u r').RecordInv := hr.putRow hrow ha rfl
    split_ifs with hset
    · refine hput.recordNodeOutcome hputR ?_ ?_
      · rw [row_putRow, if_pos rfl]
      · rcases hset with hset | hset <;> rw [hset] <;> decide
    · exact hput
  | commitAdd x task call inherited now =>
    simp only [step] at h
    split at h
    · split at h
      · obtain ⟨⟨-, hnew, -⟩, h⟩ := Option.ite_none_right_eq_some.mp h
        obtain rfl := Option.some.inj h
        exact LastInv.unread (hi.insertNode hr hnew (addedRow_status.imp_left And.left)) rfl
      · cases h
    · cases h
  | pruneTask u =>
    simp only [step] at h
    split at h
    · obtain ⟨-, h⟩ := Option.ite_none_right_eq_some.mp h
      obtain rfl := Option.some.inj h
      exact LastInv.prune hi
    · cases h
  | markProven x locked =>
    simp only [step] at h
    split at h
    · obtain rfl := Option.some.inj h
      exact LastInv.mark (LastInv.unread hi rfl) _
    · cases h
  | readRepairs x w =>
    simp only [step] at h
    split at h
    · obtain rfl := Option.some.inj h
      refine LastInv.setPass hi fun r hr => .inr ?_
      obtain ⟨n, hn, hmap⟩ := List.mem_filterMap.mp hr
      obtain ⟨⟨st, e⟩, hrow, rfl⟩ := Option.map_eq_some_iff.mp hmap
      have hkind := (List.mem_filter.mp hn).2
      rw [decide_eq_true_eq, hrow] at hkind
      refine ⟨hrow, by_contra fun hset => ?_⟩
      simp [OxpullWorkflowNode.kind, hset] at hkind
    · cases h
  | commitRepairs x =>
    simp only [step] at h
    split at h
    · next records hx =>
      obtain rfl := Option.some.inj h
      have hok : s.PassOk (.repairing records) := hx ▸ ho.passes x
      have hmem : ∀ r ∈ records, r ∈ (s.passes x).records := by
        rw [hx]
        exact fun r hr => hr
      have hrec := LastInv.recordMany hi hr.uncounted fun r h =>
        ⟨LastInv.says_read hi hr.uncounted (hmem r h), (hok r h).2.1⟩
      exact LastInv.mark (hrec.unread (x := x) (p := .idle) rfl) _
    · cases h
  | readNodeRows x size =>
    simp only [step] at h
    split at h
    · next nodes records hx =>
      obtain rfl := Option.some.inj h
      refine LastInv.setPass hi fun r hr => ?_
      rcases List.mem_append.mp hr with hr | hr
      · left
        change r ∈ (s.passes x).records
        rw [hx]
        exact hr
      · right
        obtain ⟨n, -, hw⟩ := List.mem_filterMap.mp hr
        unfold wantedRecord at hw
        split at hw
        · next st e hrow =>
          obtain ⟨hset, hw⟩ := Option.ite_none_right_eq_some.mp hw
          obtain rfl := Option.some.inj hw
          exact ⟨hrow, hset.1⟩
        · cases hw
    · cases h
  | writeRecords x locked =>
    simp only [step] at h
    split at h
    · next records hx =>
      obtain rfl := Option.some.inj h
      have hok : s.PassOk (.looking [] records) := hx ▸ ho.passes x
      have hmem : ∀ r ∈ records, r ∈ (s.passes x).records := by
        rw [hx]
        exact fun r hr => hr
      have hsaid : ∀ r ∈ records.filter (·.1 ∈ locked), s.uncounted.Says r.2.1 r.2.2.1 r.2.2.2 ∧
          ∀ n ∈ s.uncounted.nodes, n.pk = r.1 → n.task = r.2.1 := by
        intro r h
        have hr' := (List.mem_filter.mp h).1
        exact ⟨LastInv.says_read hi hr.uncounted (hmem r hr'), (hok.2 r hr').2.1⟩
      have hrec := LastInv.recordMany hi hr.uncounted hsaid
      exact hrec.unread (x := x) (p := .idle) rfl
    · cases h
  | releaseMany x now =>
    simp only [step] at h
    split at h
    · obtain ⟨-, h⟩ := Option.ite_none_right_eq_some.mp h
      obtain rfl := Option.some.inj h
      exact LastInv.unread (hi.updateMany hr fun _ => rfl) rfl
    · cases h
  | cancelMany x now =>
    simp only [step] at h
    split at h
    · next w doomed pairs hx =>
      obtain ⟨-, h⟩ := Option.ite_none_right_eq_some.mp h
      obtain rfl := Option.some.inj h
      have hmany : (s.updateMany pairs fun e => .cancelMany e now).Answerable :=
        hi.updateMany hr fun _ => rfl
      have hmanyR : (s.updateMany pairs fun e => .cancelMany e now).RecordInv :=
        hr.updateMany fun _ => rfl
      have hrecorded : (if (pairs.filter fun p => s.status p.1 ≠ some .discarded ∧
            (s.updateMany pairs fun e => .cancelMany e now).status p.1 = some .discarded) = [] then
          s.updateMany pairs fun e => .cancelMany e now
          else (s.updateMany pairs fun e => .cancelMany e now).recordDiscarded
            pairs).Answerable := by
        split_ifs
        · exact hmany
        · exact hmany.recordDiscarded hmanyR pairs
      apply Answerable.hold
      exact hrecorded.unread (p := .idle) rfl
    · cases h
  | readCancellable x w =>
    simp only [step] at h
    split at h
    · obtain ⟨-, h⟩ := Option.ite_none_right_eq_some.mp h
      obtain rfl := Option.some.inj h
      apply Answerable.hold
      exact hi.unread rfl
    · cases h
  | lockDoomed x =>
    simp only [step] at h
    split at h
    · split at h
      · obtain rfl := Option.some.inj h
        exact hi.unread rfl
      · obtain ⟨-, h⟩ := Option.ite_none_right_eq_some.mp h
        obtain rfl := Option.some.inj h
        apply Answerable.hold
        exact hi.unread rfl
    · cases h
  | retireChunk x =>
    simp only [step] at h
    split at h
    · next w c chunk hx =>
      obtain ⟨-, h⟩ := Option.ite_none_right_eq_some.mp h
      obtain rfl := Option.some.inj h
      refine Answerable.unread ?_ rfl
      exact (LastInv.drop hi fun _ h => (List.mem_filter.mp h).1).mark _
    · cases h
  | abort x =>
    obtain rfl := Option.some.inj h
    apply Answerable.hold
    exact hi.unread rfl
  | create w | sealOnce w | complete w | stamp w | clear w =>
    simp only [step] at h
    repeat' split at h
    all_goals cases h
    all_goals exact LastInv.of_eq hi rfl rfl rfl rfl fun _ _ h => .inl h
  | _ =>
    simp only [step] at h
    repeat' split at h
    all_goals cases h
    all_goals exact hi.unread rfl

section Row

variable {P : RowState → Prop} {r : RowState}

theorem rows_recordNodeOutcome (s : WorkflowState) (t : TaskId) (st : Status) (e : ℕ) :
    (s.recordNodeOutcome t st e).rows = s.rows := by
  obtain ⟨nodes, edges, h⟩ := recordNodeOutcome_frame s t st e
  rw [h]

theorem row_putRow_induction {r' : RowState} (hr : s.rows u = some r) (hP : u = t → P r → P r')
    (hi : ∀ x, s.rows t = some x → P x) (x : RowState) (hx : (s.putRow u r').rows t = some x) :
    P x := by
  rw [rows_putRow] at hx
  split_ifs at hx with he
  · obtain rfl := Option.some.inj hx
    exact hP he.symm (hi r (he ▸ hr))
  · exact hi x hx

theorem row_updateMany_induction {pairs : List (TaskId × ℕ)} {a : ℕ → RowAction}
    (hP : ∀ e r r', P r → r.step (a e) = some r' → P r')
    (hi : ∀ x, s.rows t = some x → P x) (x : RowState)
    (hx : (s.updateMany pairs a).rows t = some x) : P x := by
  have hall : ∀ x, (s.updateMany pairs a).rows t = some x → P x := by
    refine updateMany_induction (P := fun s' => ∀ x, s'.rows t = some x → P x) s hi ?_
    intro s' hi' q _
    rcases update_cases s' q.1 (a q.2) with h | ⟨r, r', hr, hb, h⟩
    · rw [h]
      exact hi'
    · rw [h]
      exact row_putRow_induction hr (fun _ hp => hP _ _ _ hp hb) hi'
  exact hall x hx

/-- What the steps of a row keep, a step of the workflow keeps of it. -/
theorem step_row_induction {a : WorkflowAction}
    (ht : t ∈ s.used ∨ ∀ call inherited now upstream won,
      P ⟨addedRow call inherited now upstream won, [], [], [], []⟩)
    (h : step s a = some s')
    (hP : ∀ r b r', a.Moves t b → P r → r.step b = some r' → P r')
    (hi : ∀ x, s.rows t = some x → P x) : ∀ x, s'.rows t = some x → P x := by
  cases a with
  | claim u c | row u c =>
    obtain ⟨-, h⟩ := Option.ite_none_right_eq_some.mp h
    obtain ⟨r', hb, rfl⟩ := Option.map_eq_some_iff.mp h
    obtain ⟨r, hrow, hc⟩ := Option.bind_eq_some_iff.mp hb
    exact row_putRow_induction hrow (fun he hp => hP _ _ _ ⟨he, rfl⟩ hp hc) hi
  | outcome u b held now ending =>
    obtain ⟨-, h⟩ := Option.ite_none_right_eq_some.mp h
    obtain ⟨r', hb, rfl⟩ := Option.map_eq_some_iff.mp h
    obtain ⟨r, hrow, hc⟩ := Option.bind_eq_some_iff.mp hb
    have hput : ∀ x, (s.putRow u r').rows t = some x → P x :=
      row_putRow_induction hrow (fun he hp => hP _ _ _ ⟨he, rfl⟩ hp hc) hi
    split_ifs
    · rw [rows_recordNodeOutcome]
      exact hput
    · exact hput
  | commitAdd x task call inherited now =>
    simp only [step] at h
    split at h
    · split at h
      · obtain ⟨⟨-, hnew, -⟩, h⟩ := Option.ite_none_right_eq_some.mp h
        obtain rfl := Option.some.inj h
        intro x hx
        have hrow := (rows_putRow s task t _).symm.trans hx
        split_ifs at hrow with he
        · obtain rfl := Option.some.inj hrow
          exact (ht.resolve_left fun hused => hnew (he ▸ hused)) _ _ _ _ _
        · exact hi x hrow
      · cases h
    · cases h
  | pruneTask u =>
    simp only [step] at h
    split at h
    · obtain ⟨-, h⟩ := Option.ite_none_right_eq_some.mp h
      obtain rfl := Option.some.inj h
      intro x hx
      by_cases he : t = u
      · simp [he] at hx
      · simp only [Function.update_of_ne he] at hx
        exact hi x hx
    · cases h
  | releaseMany x now =>
    simp only [step] at h
    split at h
    · obtain ⟨-, h⟩ := Option.ite_none_right_eq_some.mp h
      obtain rfl := Option.some.inj h
      exact row_updateMany_induction (fun e _ _ hp hb => hP _ _ _ ⟨e, rfl⟩ hp hb) hi
    · cases h
  | cancelMany x now =>
    simp only [step] at h
    split at h
    · next w doomed pairs hx =>
      obtain ⟨-, h⟩ := Option.ite_none_right_eq_some.mp h
      obtain rfl := Option.some.inj h
      have hmany : ∀ x, (s.updateMany pairs fun e => .cancelMany e now).rows t = some x → P x :=
        row_updateMany_induction (fun e _ _ hp hb => hP _ _ _ ⟨e, rfl⟩ hp hb) hi
      intro y hy
      apply hmany y
      change (if _ then _ else _ : WorkflowState).rows t = some y at hy
      split_ifs at hy
      · exact hy
      · obtain ⟨nodes, hsame⟩ := recordDiscarded_frame
          (s.updateMany pairs fun e => .cancelMany e now) pairs
        rw [hsame] at hy
        exact hy
    · cases h
  | _ =>
    simp only [step] at h
    repeat' split at h
    all_goals cases h
    all_goals exact hi

theorem inv_of_added (call : Call) (inherited : ℕ) (now : ℤ) (upstream won : List TaskId) :
    RowState.Inv ⟨addedRow call inherited now upstream won, [], [], [], []⟩ := by
  have hepoch : (addedRow call inherited now upstream won).leaseEpoch = 0 := by
    unfold addedRow
    split_ifs
    · rfl
    · simp [OxTask.release, OxTask.released, waitingRow, DjangoOx.row]
    · rfl
  have hshut : ¬ (addedRow call inherited now upstream won).status.Writable := by
    have hadded : (addedRow call inherited now upstream won).status = .ready ∧ upstream ⊆ won ∨
        (addedRow call inherited now upstream won).status = .waiting := addedRow_status
    rcases hadded with ⟨h, -⟩ | h
    · rw [h]
      decide
    · rw [h]
      decide
  have hfence : (addedRow call inherited now upstream won).fence = ⟨0, false⟩ := by
    unfold OxTask.fence
    rw [hepoch, decide_eq_false hshut]
  refine ⟨?_, by simp, by simp, by simp [RowState.sinceClaim], by simp [RowState.sinceClaim],
    by simp [RowState.grants], by simp⟩
  rw [hfence]
  exact .nil 0

/-- In every reachable state the rows keep the invariant of a row alone, and the records stay
answerable. -/
theorem reachable_rows (h : workflowSystem.Reachable s) :
    s.Answerable ∧ ∀ t r, s.rows t = some r → r.Inv := by
  have hall : (s.OrderInv ∧ s.RecordInv) ∧ s.Answerable ∧ ∀ t r, s.rows t = some r → r.Inv := by
    apply h.invariant fun s =>
      (s.OrderInv ∧ s.RecordInv) ∧ s.Answerable ∧ ∀ t r, s.rows t = some r → r.Inv
    · intro s hs
      have hnone := hs.2.2.2.1
      exact ⟨⟨order_of_start hs, record_of_start hs⟩, last_of_start ⟨hs.1, hs.2.1, hs.2.2.1, hnone,
        hs.2.2.2.2.1, hs.2.2.2.2.2.1, hs.2.2.2.2.2.2.1, hs.2.2.2.2.2.2.2.1,
        hs.2.2.2.2.2.2.2.2.1, hs.2.2.2.2.2.2.2.2.2.1, hs.2.2.2.2.2.2.2.2.2.2.1,
        hs.2.2.2.2.2.2.2.2.2.2.2.1, rfl⟩, fun t r hr => by rw [hnone] at hr; cases hr⟩
    · intro s a s' hi hs
      obtain ⟨⟨ho, hr⟩, ha, hrows⟩ := hi
      refine ⟨⟨step_order ho hs, step_record ho hr hs⟩, step_answerable ho hr ha hs, fun t => ?_⟩
      exact step_row_induction (Or.inr inv_of_added) hs
        (fun _ _ _ _ hinv hb => RowState.step_inv hinv hb) (hrows t)
  exact hall.2

end Row

end WorkflowState

end DjangoOx
