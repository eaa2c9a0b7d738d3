import DjangoOx.Workflow.Records

/-! What is on record of a node is the status of a settled row, whoever writes the outcomes. -/
namespace DjangoOx

open Machine

namespace WorkflowState

variable {s s' : WorkflowState} {x : ℕ} {t : TaskId} {p : WorkflowPass}

structure SettledInv (s : WorkflowState) : Prop where
  settled : ∀ n ∈ s.nodes, ∀ st, n.outcome = some st → st.Settled
  read : ∀ x, ∀ r ∈ (s.passes x).records, r.2.2.1.Settled

theorem SettledInv.of_eq (hi : s.SettledInv) (hn : s'.nodes = s.nodes)
    (hp : s'.passes = s.passes) : s'.SettledInv :=
  ⟨hn ▸ hi.settled, hp ▸ hi.read⟩

theorem SettledInv.setPass (hi : s.SettledInv)
    (hp : ∀ r ∈ p.records, r ∈ (s.passes x).records ∨ r.2.2.1.Settled) :
    (s.setPass x p).SettledInv := by
  refine ⟨hi.settled, fun y r hr => ?_⟩
  rw [passes_setPass] at hr
  split_ifs at hr with h
  · rcases hp r hr with hr | hset
    · exact hi.read x r hr
    · exact hset
  · exact hi.read y r hr

theorem SettledInv.unread (hi : s.SettledInv) (hp : p.records = []) : (s.setPass x p).SettledInv :=
  hi.setPass (by simp [hp])

theorem SettledInv.hold (hi : s.SettledInv) (holder : TaskId → Option ℕ)
    (owner : ℕ → Option ℕ) : SettledInv { s with holder := holder, owner := owner } :=
  hi.of_eq rfl rfl

theorem SettledInv.putRow (hi : s.SettledInv) (t : TaskId) (r : RowState) :
    (s.putRow t r).SettledInv := by
  refine hi.of_eq ?_ ?_ <;> unfold WorkflowState.putRow <;> split_ifs <;> rfl

theorem SettledInv.updateMany (hi : s.SettledInv) (pairs : List (TaskId × ℕ))
    (a : ℕ → RowAction) : (s.updateMany pairs a).SettledInv := by
  obtain ⟨rows, succeeded, heq⟩ := s.updateMany_frame pairs a
  rw [heq]
  exact hi.of_eq rfl rfl

/-- Records are written of settled rows. -/
theorem SettledInv.renode (hi : s.SettledInv) {f : OxpullWorkflowNode → OxpullWorkflowNode}
    (hf : ∀ n, f n = n ∨ ∃ st e, f n = n.record st e ∧ st.Settled) :
    SettledInv { s with nodes := s.nodes.map f } := by
  refine ⟨fun n' hn' st' h => ?_, hi.read⟩
  obtain ⟨n, hn, rfl⟩ := List.mem_map.mp hn'
  rcases hf n with hsame | ⟨st, e, hrec, hset⟩
  · exact hi.settled n hn st' (hsame ▸ h)
  · rw [hrec] at h
    rcases n.record_outcome st e with hnew | hold
    · obtain rfl : st = st' := Option.some.inj (hnew.symm.trans h)
      exact hset
    · exact hi.settled n hn st' (hold ▸ h)

theorem SettledInv.recordNode (hi : s.SettledInv) {st : Status} (e : ℕ) (hst : st.Settled) :
    (s.recordNode t st e).SettledInv := by
  refine hi.renode fun n => ?_
  split_ifs
  · exact .inr ⟨st, e, rfl, hst⟩
  · exact .inl rfl

theorem SettledInv.recordNodeOutcome (hi : s.SettledInv) {st : Status} (e : ℕ) (hst : st.Settled) :
    (s.recordNodeOutcome t st e).SettledInv := by
  have hrec : (s.recordNode t st e).SettledInv := hi.recordNode e hst
  unfold WorkflowState.recordNodeOutcome
  split_ifs
  · exact hrec.of_eq rfl rfl
  · exact hrec
  · exact hi

theorem SettledInv.recordMany (hi : s.SettledInv) {records : List (ℕ × TaskId × Status × ℕ)}
    (hs : ∀ r ∈ records, r.2.2.1.Settled) :
    SettledInv { s with nodes := DjangoOx.recordMany s.nodes (records.map recordFields) } := by
  obtain ⟨f, hmap, hf⟩ := exists_recordMany s.nodes (records.map recordFields)
  rw [hmap]
  refine hi.renode fun n => ?_
  rcases hf n with h | ⟨st, e, hmem, h⟩
  · exact .inl h
  · obtain ⟨r, hr, heq⟩ := List.mem_map.mp hmem
    have hst : r.2.2.1 = st := congrArg (·.2.1) heq
    exact .inr ⟨st, e, h, hst ▸ hs r hr⟩

theorem SettledInv.recordDiscarded (hi : s.SettledInv) (pairs : List (TaskId × ℕ)) :
    (s.recordDiscarded pairs).SettledInv :=
  recordDiscarded_induction (P := SettledInv) s hi fun _ hi' _ e _ =>
    hi'.recordNode e (.inr (.inr (.inr rfl)))

theorem settled_of_start (h : s.Start) : s.SettledInv := by
  obtain ⟨-, -, -, -, hn, -, -, -, hp, -⟩ := h
  constructor <;> simp [hn, hp, WorkflowPass.records]

theorem step_settled {a : WorkflowAction} (hi : s.SettledInv) (h : step s a = some s') :
    s'.SettledInv := by
  cases a with
  | claim u a | row u a =>
    obtain ⟨-, h⟩ := Option.ite_none_right_eq_some.mp h
    obtain ⟨r', -, rfl⟩ := Option.map_eq_some_iff.mp h
    exact hi.putRow u r'
  | outcome u b held now ending =>
    obtain ⟨-, h⟩ := Option.ite_none_right_eq_some.mp h
    obtain ⟨r', -, rfl⟩ := Option.map_eq_some_iff.mp h
    split_ifs with hset
    · exact (hi.putRow u r').recordNodeOutcome _ (hset.imp_right .inl)
    · exact hi.putRow u r'
  | commitAdd x task call inherited now =>
    simp only [step] at h
    split at h
    · next w name upstream won hx =>
      split at h
      · next f hf =>
        obtain ⟨-, h⟩ := Option.ite_none_right_eq_some.mp h
        obtain rfl := Option.some.inj h
        refine SettledInv.unread ⟨fun n hn st hst => ?_, hi.read⟩ rfl
        -- the new node has no record
        rcases List.mem_append.mp hn with hold | hnew
        · exact hi.settled n hold st hst
        · rw [List.mem_singleton.mp hnew] at hst
          cases hst
      · cases h
    · cases h
  | markProven x locked =>
    simp only [step] at h
    split at h
    · obtain rfl := Option.some.inj h
      exact (hi.unread (x := x) (p := .idle) rfl).of_eq rfl rfl
    · cases h
  | readRepairs x w =>
    simp only [step] at h
    split at h
    · obtain rfl := Option.some.inj h
      refine hi.setPass fun r hr => .inr ?_
      obtain ⟨n, hn, hmap⟩ := List.mem_filterMap.mp hr
      obtain ⟨⟨st, e⟩, hrow, rfl⟩ := Option.map_eq_some_iff.mp hmap
      have hkind := (List.mem_filter.mp hn).2
      rw [decide_eq_true_eq, hrow] at hkind
      by_contra hset
      simp [OxpullWorkflowNode.kind, hset] at hkind
    · cases h
  | commitRepairs x =>
    simp only [step] at h
    split at h
    · next records hx =>
      obtain rfl := Option.some.inj h
      have hread : ∀ r ∈ records, r.2.2.1.Settled := fun r hr => hi.read x r (by rw [hx]; exact hr)
      exact ((hi.recordMany hread).unread (x := x) (p := .idle) rfl).of_eq rfl rfl
    · cases h
  | readNodeRows x size =>
    simp only [step] at h
    split at h
    · next nodes records hx =>
      obtain rfl := Option.some.inj h
      refine hi.setPass fun r hr => ?_
      rcases List.mem_append.mp hr with hr | hr
      · left
        rw [hx]
        exact hr
      · right
        obtain ⟨n, -, hw⟩ := List.mem_filterMap.mp hr
        unfold wantedRecord at hw
        split at hw
        · obtain ⟨hset, hw⟩ := Option.ite_none_right_eq_some.mp hw
          obtain rfl := Option.some.inj hw
          exact hset.1
        · cases hw
    · cases h
  | writeRecords x locked =>
    simp only [step] at h
    split at h
    · next records hx =>
      obtain rfl := Option.some.inj h
      have hread : ∀ r ∈ records.filter (·.1 ∈ locked), r.2.2.1.Settled := fun r hr =>
        hi.read x r (by rw [hx]; exact (List.mem_filter.mp hr).1)
      exact (hi.recordMany hread).unread (x := x) (p := .idle) rfl
    · cases h
  | releaseMany x now =>
    simp only [step] at h
    split at h
    · next pairs hx =>
      obtain ⟨-, h⟩ := Option.ite_none_right_eq_some.mp h
      obtain rfl := Option.some.inj h
      exact (hi.updateMany pairs fun e => .release e now).unread rfl
    · cases h
  | cancelMany x now =>
    simp only [step] at h
    split at h
    · next w doomed pairs hx =>
      obtain ⟨-, h⟩ := Option.ite_none_right_eq_some.mp h
      obtain rfl := Option.some.inj h
      have hmany := hi.updateMany pairs fun e => .cancelMany e now
      apply SettledInv.hold
      refine SettledInv.unread ?_ (p := .idle) rfl
      split_ifs
      · exact hmany
      · exact hmany.recordDiscarded pairs
    · cases h
  | lockDoomed x =>
    simp only [step] at h
    split at h
    · split at h
      · obtain rfl := Option.some.inj h
        exact hi.unread rfl
      · obtain ⟨-, h⟩ := Option.ite_none_right_eq_some.mp h
        obtain rfl := Option.some.inj h
        apply SettledInv.hold
        exact hi.unread rfl
    · cases h
  | retireChunk x =>
    simp only [step] at h
    split at h
    · next w c chunk hx =>
      obtain ⟨-, h⟩ := Option.ite_none_right_eq_some.mp h
      obtain rfl := Option.some.inj h
      refine SettledInv.unread ⟨fun n hn => ?_, hi.read⟩ rfl
      exact hi.settled n (List.mem_filter.mp hn).1
    · cases h
  | abort x =>
    obtain rfl := Option.some.inj h
    apply SettledInv.hold
    exact hi.unread rfl
  | create w | sealOnce w | complete w | stamp w | clear w | pruneTask w =>
    simp only [step] at h
    repeat' split at h
    all_goals cases h
    all_goals exact hi.of_eq rfl rfl
  | readCancellable x w =>
    simp only [step] at h
    split at h
    · obtain ⟨-, h⟩ := Option.ite_none_right_eq_some.mp h
      obtain rfl := Option.some.inj h
      apply SettledInv.hold
      exact hi.unread rfl
    · cases h
  | _ =>
    simp only [step] at h
    repeat' split at h
    all_goals cases h
    all_goals exact hi.unread rfl

end WorkflowState

end DjangoOx
