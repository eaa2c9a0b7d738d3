import DjangoOx.Batch.Steps
import DjangoOx.Task.Fencing
import Mathlib.Data.List.Dedup

/-! The completion of a batch over every run: when it commits, and what is enqueued with it. -/
namespace DjangoOx

open Machine

section Counts

variable {c : BatchTables} {b : ℕ} {t : TaskId}

theorem pendingCount_eq (counts : Status → ℕ) :
    pendingCount counts = counts .ready + (counts .running + counts .waiting) := rfl

theorem countedOf_eq (counts : Status → ℕ) :
    countedOf counts + counts .lost + counts .discarded =
      pendingCount counts + counts .failed + counts .successful + counts .lost +
        counts .discarded := by
  have hall : (Status.all.map counts).sum = counts .ready + (counts .running + (counts .failed +
      (counts .successful + (counts .lost + (counts .discarded + counts .waiting))))) := rfl
  have hout : (unattributedStatuses.map counts).sum = counts .lost + counts .discarded := rfl
  unfold countedOf
  rw [hall, hout, pendingCount_eq]
  omega

namespace BatchTables

/-- Where nothing is pending, every member's row is settled or gone. -/
theorem settled_of_pendingCount (h : pendingCount (c.memberTaskCounts b) = 0)
    (ht : t ∈ c.membersOf b) (r : RowState) (hr : c.tasks t = some r) :
    r.row.status.Settled := by
  have hcount : ∀ st, c.memberTaskCounts b st = 0 → r.row.status ≠ st := by
    intro st hzero he
    have hnone := List.countP_eq_zero.mp hzero t (List.mem_dedup.mpr ht)
    simp [hr, he] at hnone
  rw [pendingCount_eq] at h
  have hready := hcount .ready (by omega)
  have hrunning := hcount .running (by omega)
  have hwaiting := hcount .waiting (by omega)
  unfold Status.Settled Status.Dead
  cases hst : r.row.status with
  | ready => exact absurd hst hready
  | running => exact absurd hst hrunning
  | waiting => exact absurd hst hwaiting
  | _ => simp

/-- Where nothing is pending, failed or unattributed, every member's row is SUCCESSFUL. -/
theorem successful_of_counts (h : pendingCount (c.memberTaskCounts b) = 0)
    (hfailed : c.memberTaskCounts b .failed = 0)
    (hunattributed : (c.membersOf b).length - countedOf (c.memberTaskCounts b) = 0)
    (ht : t ∈ c.membersOf b) : ∃ r, c.tasks t = some r ∧ r.row.status = .successful := by
  have hcounted := countedOf_eq (c.memberTaskCounts b)
  have hsuccessful : (c.membersOf b).length ≤ c.memberTaskCounts b .successful := by omega
  have hdedup : (c.membersOf b).dedup.length ≤ (c.membersOf b).length :=
    (List.dedup_sublist _).length_le
  have hle := List.countP_le_length (l := (c.membersOf b).dedup)
    (p := fun t => (c.tasks t).map (·.row.status) = some .successful)
  have hall : (c.membersOf b).dedup.countP
      (fun t => (c.tasks t).map (·.row.status) = some .successful) =
        (c.membersOf b).dedup.length := by
    unfold memberTaskCounts at hsuccessful
    omega
  have hmem := List.countP_eq_length.mp hall t (List.mem_dedup.mpr ht)
  simpa using hmem

theorem clean_iff (h : pendingCount (c.memberTaskCounts b) = 0) (hd : (c.membersOf b).Nodup) :
    c.memberTaskCounts b .failed = 0 ∧
      (c.membersOf b).length - countedOf (c.memberTaskCounts b) = 0 ↔
    ∀ t ∈ c.membersOf b, ∃ r, c.tasks t = some r ∧ r.row.status = .successful := by
  constructor
  · rintro ⟨hfailed, hunattributed⟩ t ht
    exact successful_of_counts h hfailed hunattributed ht
  · intro hall
    have hcounted := countedOf_eq (c.memberTaskCounts b)
    have hfailed : c.memberTaskCounts b .failed = 0 := by
      apply List.countP_eq_zero.mpr
      intro t ht
      obtain ⟨r, hr, hst⟩ := hall t (List.mem_dedup.mp ht)
      simp [hr, hst]
    have hsuccessful : c.memberTaskCounts b .successful = (c.membersOf b).length := by
      have hdedup : (c.membersOf b).dedup = c.membersOf b := List.dedup_eq_self.mpr hd
      unfold memberTaskCounts
      rw [hdedup]
      apply List.countP_eq_length.mpr
      intro t ht
      obtain ⟨r, hr, hst⟩ := hall t ht
      simp [hr, hst]
    exact ⟨hfailed, by omega⟩

end BatchTables

end Counts

/-- The session that acts; `none` for everybody outside. -/
def BatchAction.caller : BatchAction → Option ℕ
  | .begin x | .savepoint x | .release x | .undo x _ | .commit x | .rollback x | .create x _ _ _
  | .add x _ | .sealOnce x _ | .complete x _ | .refuse x | .enter x | .enqueue x _ _ _ _
  | .enqueueKept x _ | .claimOpen x | .enterInsert x | .insertMember x | .leaveInsert x | .flip x
  | .requireSchedule x | .countMembers x | .storeTotal x | .filter x | .win x | .countTasks x
  | .readRow x | .countLive x | .sendComplete x _ _ _ _ | .sendSuccess x _ _ _ _ | .store x
  | .fail x _ | .leave x | .raise x _ | .lose x _ => some x
  | .elsewhere _ _ _ _ | .row _ _ | .prune _ => none

namespace BatchState

open BatchTables

section Committed

variable {s s' : BatchState} {x y b : ℕ} {a : BatchAction}

theorem committed_undo (db : Ledger BatchTables BatchWrite ℕ ℕ) (x : ℕ) (keep : Bool) :
    (db.undo x keep).committed = db.committed := by
  unfold Ledger.undo
  split <;> rfl

/-- What a step commits: nothing, a session's transaction, or what somebody outside wrote under no
lock of a session. -/
inductive Commits (s s' : BatchState) (a : BatchAction) : Prop
  | nothing (h : s'.db.committed = s.db.committed)
  | own (x : ℕ) (h : s'.db.committed = s.view x) (hc : (s.callers x).call = .idle)
      (ha : a = .commit x)
  | call (x : ℕ) (h : s'.db.committed = s.view x) (hc : (s.callers x).call.finished = true)
      (ha : a = .leave x)
  | create (x b : ℕ) (f : OxpullBatch) (h : s'.db.committed = s.db.committed.write (.batch b f))
      (hfree : s.db.holder b = none) (hnone : s.db.committed.batches b = none)
      (hf : f.status = .opened) (hc : (s.callers x).call = .idle) (ha : a.caller = some x)
  | tasks (h : ∀ k, s'.db.committed.part k = s.db.committed.part k) (ha : a.caller = none)

theorem stepCaller_commits (h : s.stepCaller a = some s') : Commits s s' a := by
  cases a with
  | commit x =>
    obtain ⟨⟨hc, -⟩, h⟩ := Option.ite_none_right_eq_some.mp h
    obtain rfl := Option.some.inj h
    exact .own x rfl hc rfl
  | undo x keep =>
    obtain ⟨-, h⟩ := Option.ite_none_right_eq_some.mp h
    obtain rfl := Option.some.inj h
    exact .nothing (committed_undo s.db x keep)
  | create x b onComplete onSuccess =>
    obtain ⟨⟨⟨hc, -⟩, hfree, hnone⟩, h⟩ := Option.ite_none_right_eq_some.mp h
    split_ifs at h
    · obtain rfl := Option.some.inj h
      exact .nothing rfl
    · obtain rfl := Option.some.inj h
      exact .create x b _ rfl hfree hnone rfl hc rfl
  | _ =>
    simp only [stepCaller] at h
    repeat' split at h
    all_goals cases h
    all_goals exact .nothing rfl

theorem stepCall_committed (h : s.stepCall a = some s') : s'.db.committed = s.db.committed := by
  cases a <;> simp only [stepCall] at h
  all_goals repeat' split at h
  all_goals cases h
  all_goals rfl

theorem stepComplete_committed (h : s.stepComplete a = some s') :
    s'.db.committed = s.db.committed := by
  cases a <;> simp only [stepComplete] at h
  all_goals repeat' split at h
  all_goals cases h
  all_goals rfl

theorem stepBlock_commits (h : s.stepBlock a = some s') : Commits s s' a := by
  cases a with
  | leave x =>
    obtain ⟨hdone, h⟩ := Option.ite_none_right_eq_some.mp h
    obtain rfl := Option.some.inj h
    by_cases ho : (s.callers x).opened = true
    · exact .nothing (by simp [went, setDb, setCall, setCaller, ho, Ledger.forget])
    · exact .call x (by simp [went, setDb, setCall, setCaller, ho, Ledger.commit, view]) hdone rfl
  | fail x keep =>
    obtain ⟨-, h⟩ := Option.ite_none_right_eq_some.mp h
    obtain rfl := Option.some.inj h
    apply Commits.nothing
    change (if _ then _ else _ : Ledger BatchTables BatchWrite ℕ ℕ).committed = _
    split_ifs
    · exact committed_undo s.db x keep
    · rfl
  | raise x keep =>
    obtain ⟨-, h⟩ := Option.ite_none_right_eq_some.mp h
    obtain rfl := Option.some.inj h
    apply Commits.nothing
    change (if _ then _ else _ : Ledger BatchTables BatchWrite ℕ ℕ).committed = _
    split_ifs
    · exact committed_undo s.db x keep
    · rfl
  | _ =>
    simp only [stepBlock] at h
    repeat' split at h
    all_goals cases h
    all_goals exact .nothing rfl

theorem stepOther_commits (h : s.stepOther a = some s') : Commits s s' a := by
  cases a with
  | row t action =>
    obtain ⟨r, -, rfl⟩ := Option.map_eq_some_iff.mp h
    exact .tasks (fun _ => rfl) rfl
  | _ =>
    simp only [stepOther] at h
    repeat' split at h
    all_goals cases h
    all_goals exact .tasks (fun _ => rfl) rfl

theorem step_commits (h : s.step a = some s') : Commits s s' a := by
  rcases step_cases h with h | h | h | h | h
  · exact stepCaller_commits h
  · exact .nothing (stepCall_committed h)
  · exact .nothing (stepComplete_committed h)
  · exact stepBlock_commits h
  · exact stepOther_commits h

/-- Writes that complete nothing. -/
theorem part_plain {c : BatchTables} {l : List BatchWrite} (hl : ∀ o ∈ l, b ∈ o.key → o.Plain)
    (hrow : ∀ f, c.batches b = some f → f.status ≠ .complete) :
    (∀ f, (l.foldl write c).batches b = some f → f.status ≠ .complete) ∧
      ((l.foldl write c).part b).callbacks = (c.part b).callbacks := by
  induction l generalizing c with
  | nil => exact ⟨hrow, rfl⟩
  | cons o l ih =>
    have hplain := hl o List.mem_cons_self
    have hnext : (∀ f, (c.write o).batches b = some f → f.status ≠ .complete) ∧
        ((c.write o).part b).callbacks = (c.part b).callbacks := by
      by_cases hkey : b ∈ o.key
      · cases o with
        | batch v g =>
          obtain rfl := Option.some.inj hkey
          have hpart := part_batch (c := c) (b := v) (f := g)
          refine ⟨fun f hf => ?_, by rw [hpart]⟩
          have hg : (c.write (.batch v g)).batches v = some g := congrArg BatchPart.row hpart
          rw [hg] at hf
          obtain rfl := Option.some.inj hf
          exact hplain rfl
        | member m => exact ⟨hrow, rfl⟩
        | task t r => exact ⟨hrow, rfl⟩
        | callback k r => exact (hplain hkey).elim
      · have hsame : (c.write o).part b = c.part b := projects.skip c o b hkey
        have hrows : (c.write o).batches b = c.batches b := congrArg BatchPart.row hsame
        rw [hrows, hsame]
        exact ⟨hrow, rfl⟩
    obtain ⟨hrows, hcallbacks⟩ := ih (fun q hq => hl q (List.mem_cons_of_mem _ hq)) hnext.1
    rw [List.foldl_cons]
    exact ⟨hrows, hcallbacks.trans hnext.2⟩

/-- How a step moves what is committed of a batch. -/
inductive PartStep (s s' : BatchState) (a : BatchAction) (b : ℕ) : Prop
  | same (h : s'.db.committed.part b = s.db.committed.part b)
  | opened (h : (s.db.committed.part b).Untaken)
      (hrow : ∀ f, s'.db.committed.batches b = some f → f.status ≠ .complete)
      (hcallbacks : (s'.db.committed.part b).callbacks = (s.db.committed.part b).callbacks)
  | completed (x i failed unattributed : ℕ) (f g : OxpullBatch)
      (sent : List (Callback × RowState)) (last : List BatchWrite) (ha : a = .leave x)
      (hc : (s.callers x).call = .completing b i (.stored failed unattributed))
      (hwin : Winning s.db x b (.stored failed unattributed) f g sent last)
      (hpart : s'.db.committed.part b =
        ⟨some g, (s.db.committed.part b).members, sent.map (·.1)⟩)

/-- What the transaction of an `add` or of a `seal` commits. -/
theorem Inv.ordinary_view (hi : s.Inv) (hcall : (s.callers x).call.Ordinary)
    (h : s'.db.committed = s.view x) (b : ℕ) : PartStep s s' a b := by
  have hx := hi.stands x
  have htouches : (s.callers x).call.promise.touches = fun o a => o.Plain ∧ a.Untaken :=
    hcall.touches
  have htouched := hx.touched
  rw [htouches] at htouched
  by_cases hkey : ∃ o ∈ s.db.work x, b ∈ o.key
  · obtain ⟨o, ho, hb⟩ := hkey
    obtain ⟨-, huntaken⟩ := htouched o ho b hb
    have hrow : ∀ f, s.db.committed.batches b = some f → f.status ≠ .complete := by
      intro f hf
      simp [huntaken f hf]
    obtain ⟨hrows, hcallbacks⟩ := part_plain (fun o ho hb => (htouched o ho b hb).1) hrow
    refine .opened huntaken ?_ ?_
    · rw [h]
      exact hrows
    · rw [h]
      exact hcallbacks
  · apply PartStep.same
    rw [h]
    exact projects.foldl_skip fun o ho hb => hkey ⟨o, ho, hb⟩

theorem Inv.partStep (hi : s.Inv) (h : s.step a = some s') (b : ℕ) : PartStep s s' a b := by
  cases step_commits h with
  | nothing hsame => exact .same (by rw [hsame])
  | tasks hsame ha => exact .same (hsame b)
  | own x hview hc ha => exact hi.ordinary_view (hc ▸ BatchCall.ordinary_idle) hview b
  | create x k f hview hfree hnone hf hc ha =>
    by_cases hb : b = k
    · subst hb
      have hpart := part_batch (c := s.db.committed) (b := b) (f := f)
      rw [← hview] at hpart
      refine .opened (fun g hg => ?_) (fun g hg => ?_) (by rw [hpart])
      · have hg' : s.db.committed.batches b = some g := hg
        rw [hnone] at hg'
        cases hg'
      · have hrow : s'.db.committed.batches b = some f := congrArg BatchPart.row hpart
        rw [hrow] at hg
        obtain rfl := Option.some.inj hg
        simp [hf]
    · apply PartStep.same
      rw [hview]
      exact projects.skip _ (.batch k f) b fun he => hb (Option.some.inj he).symm
  | call x hview hdone ha =>
    cases hc : (s.callers x).call with
    | idle => exact hi.ordinary_view (hc ▸ BatchCall.ordinary_idle) hview b
    | adding k i stage => exact hi.ordinary_view (hc ▸ BatchCall.ordinary_adding k i stage) hview b
    | sealing k stage => exact hi.ordinary_view (hc ▸ BatchCall.ordinary_sealing k stage) hview b
    | completing k i stage =>
      rw [hc] at hdone
      cases stage with
      | beaten =>
        obtain ⟨-, -, hnone, -⟩ := hi.complete x k i .beaten hc
        have hwork : s.db.work x = [] := hnone (by rw [hc]; rfl) (by rw [hc]; rfl)
        apply PartStep.same
        rw [hview]
        unfold view Ledger.view
        rw [hwork]
        rfl
      | stored failed unattributed =>
        obtain ⟨f, g, sent, last, hwin⟩ := hi.winning hc rfl
        by_cases hb : b = k
        · subst hb
          refine .completed x i failed unattributed f g sent last ha hc hwin ?_
          rw [hview]
          exact hwin.part (hi.stand.whole b)
        · apply PartStep.same
          rw [hview]
          exact hwin.part_of_ne hb
      | _ => cases hdone

end Committed

end BatchState

/-- The statement that counts the task rows has answered. -/
def CompleteStage.past : CompleteStage → Bool
  | .counted .. | .totalless .. | .totalled .. | .completeSent .. | .successSent ..
  | .stored .. => true
  | _ => false

/-- What the completion keeps of those counts, of a batch of so many members. -/
def CompleteStage.Keeps (members failed counted : ℕ) : CompleteStage → Prop
  | .counted m n | .totalless m n _ => m = failed ∧ n = counted
  | .totalled m n _ _ | .completeSent m n _ _ | .successSent m n _ | .stored m n =>
    m = failed ∧ n = members - counted
  | _ => True

namespace BatchState

open BatchTables

/-- The states that the steps of a run lead to while `x` is past its compare-and-set on the batch,
in one transaction. -/
inductive Within (x b : ℕ) : BatchState → BatchState → Prop
  | refl {s : BatchState} : (s.callers x).call.won = some b → Within x b s s
  | step {s t u : BatchState} {a : BatchAction} : Within x b s t → t.step a = some u →
      (u.callers x).call.won = some b → Within x b s u

/-- In `t`, since when `x` is past its compare-and-set, nothing of the batch was pending. -/
structure Counted (x b failed counted : ℕ) (t s : BatchState) : Prop where
  reachable : batchSystem.Reachable t
  within : Within x b t s
  part : t.db.committed.part b = s.db.committed.part b
  pending : pendingCount (t.db.committed.memberTaskCounts b) = 0
  failed : failed = t.db.committed.memberTaskCounts b .failed
  counted : counted = countedOf (t.db.committed.memberTaskCounts b)

def Remembers (s : BatchState) (x : ℕ) : Prop :=
  ∀ b i stage, (s.callers x).call = .completing b i stage → stage.past = true →
    ∃ failed counted t, stage.Keeps (s.db.committed.membersOf b).length failed counted ∧
      Counted x b failed counted t s

section Runs

variable {s s' t : BatchState} {x b i failed counted : ℕ} {a : BatchAction}
  {stage stage' : CompleteStage}

theorem callers_of_step (h : s.step a = some s') (hx : a.caller ≠ some x) :
    s'.callers x = s.callers x := by
  have hne : ∀ y, a.caller = some y → x ≠ y := fun y hy he => hx (he ▸ hy)
  rcases step_cases h with h | h | h | h | h
  · cases a <;> simp only [stepCaller] at h
    all_goals repeat' split at h
    all_goals cases h
    all_goals first
      | rfl
      | exact Function.update_of_ne (hne _ rfl) ..
  · cases a <;> simp only [stepCall] at h
    all_goals repeat' split at h
    all_goals cases h
    all_goals exact Function.update_of_ne (hne _ rfl) ..
  · cases a <;> simp only [stepComplete] at h
    all_goals repeat' split at h
    all_goals cases h
    all_goals exact Function.update_of_ne (hne _ rfl) ..
  · cases a <;> simp only [stepBlock] at h
    all_goals repeat' split at h
    all_goals cases h
    all_goals exact Function.update_of_ne (hne _ rfl) ..
  · cases a with
    | row t action =>
      obtain ⟨r, -, rfl⟩ := Option.map_eq_some_iff.mp h
      rfl
    | _ =>
      simp only [stepOther] at h
      repeat' split at h
      all_goals cases h
      all_goals rfl

theorem won_of_past (h : stage.past = true) : (BatchCall.completing b i stage).won = some b := by
  cases stage with
  | called => cases h
  | filtered => cases h
  | entered => cases h
  | beaten => cases h
  | failing => cases h
  | _ => rfl

/-- While the others go on, nothing of a batch moves that a session has won. -/
theorem Inv.part_of_won (hi : s.Inv) (h : s.step a = some s') (hx : a.caller ≠ some x)
    (hc : (s.callers x).call = .completing b i stage)
    (hwon : (BatchCall.completing b i stage).won = some b) :
    s'.db.committed.part b = s.db.committed.part b := by
  obtain ⟨f, g, sent, last, hwin⟩ := hi.winning hc hwon
  cases hi.partStep h b with
  | same hsame => exact hsame
  | opened huntaken hrow hcallbacks =>
    have hopened := huntaken f hwin.row
    rw [hwin.sealed] at hopened
    cases hopened
  | completed y j m n f' g' sent' last' ha hcy hwin' hpart =>
    have hsame : some y = some x := hwin'.held.symm.trans hwin.held
    subst ha
    exact absurd hsame hx

theorem Counted.step (hcounted : Counted x b failed counted t s) (h : s.step a = some s')
    (hwon : (s'.callers x).call.won = some b)
    (hpart : s'.db.committed.part b = s.db.committed.part b) :
    Counted x b failed counted t s' :=
  ⟨hcounted.reachable, .step hcounted.within h hwon, hcounted.part.trans hpart.symm,
    hcounted.pending, hcounted.failed, hcounted.counted⟩

/-- A statement of a completion after the counts. -/
theorem Remembers.advance (hr : Remembers s x) (h : s.step a = some s')
    (hc : (s.callers x).call = .completing b i stage) (hpast : stage.past = true)
    (hc' : (s'.callers x).call = .completing b i stage')
    (hpast' : stage'.past = true) (hcommitted : s'.db.committed = s.db.committed)
    (hkeeps : ∀ failed counted, stage.Keeps (s.db.committed.membersOf b).length failed counted →
      stage'.Keeps (s.db.committed.membersOf b).length failed counted) : Remembers s' x := by
  intro b' i' st hcall hst
  rw [hc'] at hcall
  cases hcall
  obtain ⟨failed, counted, t, hk, hcounted⟩ := hr b i stage hc hpast
  refine ⟨failed, counted, t, ?_, hcounted.step h ?_ ?_⟩
  · rw [hcommitted]
    exact hkeeps failed counted hk
  · rw [hc']
    exact won_of_past hpast'
  · rw [hcommitted]

theorem Remembers.of_not (h : ∀ b i stage, (s.callers x).call = .completing b i stage →
    stage.past = false) : Remembers s x := by
  intro b i stage hc hpast
  exact absurd (hpast.symm.trans (h b i stage hc)) (by simp)

theorem call_setCall (s : BatchState) (x : ℕ) (call : BatchCall) :
    ((s.setCall x call).callers x).call = call := by
  simp [setCall, setCaller]

/-- Past the counts of no completion. -/
def Unpast (c : BatchCall) : Prop := ∀ b i stage, c = .completing b i stage → stage.past = false

theorem Unpast.of_eq {c : BatchCall} (h : Unpast c) {u : BatchCaller} (hu : u.call = c) :
    Unpast u.call := hu ▸ h

theorem unpast_idle : Unpast .idle := fun _ _ _ h => by cases h

theorem unpast_ordinary {c : BatchCall} (h : c.Ordinary) : Unpast c :=
  fun b i stage hc => absurd hc (h b i stage)

theorem unpast_failed {c : BatchCall} : Unpast c.failed := by
  intro b i stage hc
  cases c <;> cases hc
  rfl

theorem unpast_of_stepCaller (h : s.stepCaller a = some s') (hx : a.caller = some x) :
    Unpast (s'.callers x).call := by
  cases a with
  | create y b onComplete onSuccess =>
    cases hx
    obtain ⟨⟨⟨hc, -⟩, -⟩, h⟩ := Option.ite_none_right_eq_some.mp h
    split_ifs at h
    · obtain rfl := Option.some.inj h
      exact unpast_idle.of_eq hc
    · obtain rfl := Option.some.inj h
      exact unpast_idle.of_eq hc
  | begin y =>
    cases hx
    obtain ⟨⟨⟨hc, -⟩, -⟩, h⟩ := Option.ite_none_right_eq_some.mp h
    obtain rfl := Option.some.inj h
    exact unpast_idle.of_eq (by simpa [setCaller] using hc)
  | commit y =>
    cases hx
    obtain ⟨⟨hc, -⟩, h⟩ := Option.ite_none_right_eq_some.mp h
    obtain rfl := Option.some.inj h
    exact unpast_idle.of_eq (by simpa [setCaller, setDb] using hc)
  | rollback y =>
    cases hx
    obtain ⟨⟨hc, -⟩, h⟩ := Option.ite_none_right_eq_some.mp h
    obtain rfl := Option.some.inj h
    exact unpast_idle.of_eq (by simpa [setCaller, setDb] using hc)
  | add y b =>
    cases hx
    obtain ⟨-, h⟩ := Option.ite_none_right_eq_some.mp h
    obtain rfl := Option.some.inj h
    exact (unpast_ordinary (BatchCall.ordinary_adding b 0 .called)).of_eq (call_setCall ..)
  | sealOnce y b =>
    cases hx
    obtain ⟨-, h⟩ := Option.ite_none_right_eq_some.mp h
    obtain rfl := Option.some.inj h
    exact (unpast_ordinary (BatchCall.ordinary_sealing b .called)).of_eq (call_setCall ..)
  | complete y b =>
    cases hx
    obtain ⟨-, h⟩ := Option.ite_none_right_eq_some.mp h
    obtain rfl := Option.some.inj h
    intro b' i stage hc
    rw [call_setCall] at hc
    cases hc
    rfl
  | savepoint y | release y | undo y keep =>
    cases hx
    obtain ⟨⟨hc, -⟩, h⟩ := Option.ite_none_right_eq_some.mp h
    obtain rfl := Option.some.inj h
    exact unpast_idle.of_eq hc
  | _ => cases h

theorem unpast_of_stepCall (h : s.stepCall a = some s') (hx : a.caller = some x) :
    Unpast (s'.callers x).call := by
  cases a <;> simp only [stepCall] at h <;> cases hx
  all_goals repeat' split at h
  all_goals cases h
  all_goals intro b i stage hc
  all_goals simp [went, inserted, setCall, setCaller] at hc

theorem unpast_of_stepBlock (h : s.stepBlock a = some s') (hx : a.caller = some x) :
    Unpast (s'.callers x).call := by
  cases a with
  | refuse y =>
    cases hx
    simp only [stepBlock] at h
    split at h
    all_goals cases h
    all_goals exact unpast_idle.of_eq (call_setCall ..)
  | enter y =>
    cases hx
    simp only [stepBlock] at h
    split at h
    · obtain rfl := Option.some.inj h
      exact (unpast_ordinary (BatchCall.ordinary_adding _ _ .entered)).of_eq (call_setCall ..)
    · obtain rfl := Option.some.inj h
      exact (unpast_ordinary (BatchCall.ordinary_sealing _ .entered)).of_eq (call_setCall ..)
    · obtain rfl := Option.some.inj h
      intro b' i stage hc
      unfold went at hc
      rw [call_setCall] at hc
      cases hc
      rfl
    · cases h
  | fail y keep =>
    cases hx
    obtain ⟨-, h⟩ := Option.ite_none_right_eq_some.mp h
    obtain rfl := Option.some.inj h
    exact unpast_failed.of_eq (call_setCall ..)
  | leave y =>
    cases hx
    obtain ⟨-, h⟩ := Option.ite_none_right_eq_some.mp h
    obtain rfl := Option.some.inj h
    exact unpast_idle.of_eq (call_setCall ..)
  | raise y keep =>
    cases hx
    obtain ⟨-, h⟩ := Option.ite_none_right_eq_some.mp h
    obtain rfl := Option.some.inj h
    exact unpast_idle.of_eq (call_setCall ..)
  | lose y conflict =>
    cases hx
    obtain ⟨-, h⟩ := Option.ite_none_right_eq_some.mp h
    split_ifs at h
    · obtain rfl := Option.some.inj h
      exact unpast_idle.of_eq (by simp [setCaller])
    · obtain rfl := Option.some.inj h
      rw [call_setCall]
      cases hr : conflict.bind (s.callers x).call.reissued with
      | none => exact unpast_idle
      | some call' =>
        obtain ⟨e, -, he⟩ := Option.bind_eq_some_iff.mp hr
        rcases reissued_cases he with ⟨b, i, rfl⟩ | ⟨b, i, rfl⟩
        · exact unpast_ordinary (BatchCall.ordinary_adding b i .called)
        · intro b' i' stage hc
          cases hc
          rfl
  | _ => cases h

/-- The compare-and-set leaves the task rows and the members to what is committed. -/
theorem Winning.memberTaskCounts {f g : OxpullBatch} {sent : List (Callback × RowState)}
    (h : Winning s.db x b .won f g sent []) :
    (s.view x).memberTaskCounts b = s.db.committed.memberTaskCounts b := by
  have hsent : sent = [] := List.map_eq_nil_iff.mp h.sent
  have hwork := h.work
  rw [hsent] at hwork
  unfold view Ledger.view
  rw [hwork]
  rfl

theorem remembers_of_stepComplete (hreach : batchSystem.Reachable s) (hi : s.Inv)
    (hr : Remembers s x) (hs : s.step a = some s') (h : s.stepComplete a = some s')
    (hx : a.caller = some x) : Remembers s' x := by
  have hcommitted := stepComplete_committed h
  cases a with
  | filter y =>
    cases hx
    simp only [stepComplete] at h
    split at h
    · split_ifs at h
      · obtain rfl := Option.some.inj h
        apply Remembers.of_not
        intro b' i' stage hc
        rw [call_setCall] at hc
        cases hc
        rfl
      · obtain rfl := Option.some.inj h
        exact .of_not (unpast_idle.of_eq (call_setCall ..))
    · cases h
  | win y =>
    cases hx
    simp only [stepComplete] at h
    repeat' split at h
    all_goals cases h
    all_goals
      apply Remembers.of_not
      intro b' i' stage hc
      simp only [went, call_setCall] at hc
      cases hc
      rfl
  | countTasks y =>
    cases hx
    simp only [stepComplete] at h
    split at h
    · next b i hc =>
      obtain ⟨f, g, sent, hwin⟩ := hi.winningYet hc rfl fun _ _ => by simp
      have hcounts := hwin.memberTaskCounts
      split_ifs at h with hpending
      · obtain rfl := Option.some.inj h
        apply Remembers.of_not
        intro b' i' stage hc'
        rw [call_setCall] at hc'
        cases hc'
        rfl
      · obtain rfl := Option.some.inj h
        intro b' i' stage hc' hpast
        rw [call_setCall] at hc'
        cases hc'
        rw [hcounts] at hpending
        refine ⟨_, _, s, ⟨rfl, rfl⟩, hreach, .step (.refl ?_) hs ?_, rfl, not_not.mp hpending, ?_, ?_⟩
        · rw [hc]
          rfl
        · rw [call_setCall]
          rfl
        · rw [hcounts]
        · rw [hcounts]
    · cases h
  | readRow y =>
    cases hx
    simp only [stepComplete] at h
    split at h
    · next b i failed counted hc =>
      obtain ⟨f, g, sent, hwin⟩ := hi.winningYet hc rfl fun _ _ => by simp
      have hpart := hwin.part (hi.stand.whole b)
      have hrow : (s.view x).batches b = some g := congrArg BatchPart.row hpart
      have htotal := (hi.stand.whole b).total f hwin.row (by simp [hwin.sealed])
      split at h
      · next g' hg' =>
        rw [hrow] at hg'
        obtain rfl := Option.some.inj hg'
        split at h
        · next total htotal' =>
          obtain rfl := Option.some.inj h
          have hmembers : total = (s.db.committed.membersOf b).length := by
            rw [hwin.completed.2, htotal] at htotal'
            exact (Option.some.inj htotal').symm
          refine hr.advance hs hc rfl (call_setCall ..) rfl hcommitted fun m n hk => ?_
          obtain ⟨rfl, rfl⟩ := hk
          rw [hmembers]
          exact ⟨rfl, rfl⟩
        · obtain rfl := Option.some.inj h
          exact hr.advance hs hc rfl (call_setCall ..) rfl hcommitted fun _ _ hk => hk
      · cases h
    · cases h
  | countLive y =>
    cases hx
    simp only [stepComplete] at h
    split at h
    · next b i failed counted row hc =>
      obtain ⟨f, g, sent, hwin⟩ := hi.winningYet hc rfl fun _ _ => by simp
      obtain rfl := Option.some.inj h
      have hseen : (s.view x).countMembers b = (s.db.committed.membersOf b).length :=
        congrArg (·.members.length) (hwin.part (hi.stand.whole b))
      refine hr.advance hs hc rfl (call_setCall ..) rfl hcommitted fun m n hk => ?_
      obtain ⟨rfl, rfl⟩ := hk
      rw [hseen]
      exact ⟨rfl, rfl⟩
    · cases h
  | sendComplete y task call inherited now =>
    cases hx
    simp only [stepComplete] at h
    split at h
    · next b i failed unattributed row columns hc =>
      split_ifs at h
      · obtain rfl := Option.some.inj h
        exact hr.advance hs hc rfl (call_setCall ..) rfl hcommitted fun _ _ hk => hk
      · obtain rfl := Option.some.inj h
        exact hr.advance hs hc rfl (call_setCall ..) rfl hcommitted fun _ _ hk => hk
    · cases h
  | sendSuccess y task call inherited now =>
    cases hx
    simp only [stepComplete] at h
    split at h
    · next b i failed unattributed row columns hc =>
      split_ifs at h
      · obtain rfl := Option.some.inj h
        exact hr.advance hs hc rfl (call_setCall ..) rfl hcommitted fun _ _ hk => hk
      · obtain rfl := Option.some.inj h
        exact hr.advance hs hc rfl (call_setCall ..) rfl hcommitted fun _ _ hk => hk
    · cases h
  | store y =>
    cases hx
    simp only [stepComplete] at h
    split at h
    · next b i failed unattributed columns hc =>
      split at h
      · obtain rfl := Option.some.inj h
        exact hr.advance hs hc rfl (call_setCall ..) rfl hcommitted fun _ _ hk => hk
      · cases h
    · cases h
  | _ => cases h

theorem remembers_step (hreach : batchSystem.Reachable s) (hi : s.Inv) (hr : ∀ x, Remembers s x)
    (h : s.step a = some s') (x : ℕ) : Remembers s' x := by
  by_cases hx : a.caller = some x
  · rcases step_cases h with h' | h' | h' | h' | h'
    · exact .of_not (unpast_of_stepCaller h' hx)
    · exact .of_not (unpast_of_stepCall h' hx)
    · exact remembers_of_stepComplete hreach hi (hr x) h h' hx
    · exact .of_not (unpast_of_stepBlock h' hx)
    · cases a <;> first | cases h' | cases hx
  · have hsame := callers_of_step h hx
    intro b i stage hc hpast
    rw [hsame] at hc
    have hpart := hi.part_of_won h hx hc (won_of_past hpast)
    obtain ⟨failed, counted, t, hk, hcounted⟩ := hr x b i stage hc hpast
    have hmembers : s'.db.committed.membersOf b = s.db.committed.membersOf b :=
      congrArg BatchPart.members hpart
    refine ⟨failed, counted, t, ?_, hcounted.step h ?_ hpart⟩
    · rw [hmembers]
      exact hk
    · rw [hsame, hc]
      exact won_of_past hpast

theorem reachable_remembers (h : batchSystem.Reachable s) (x : ℕ) : Remembers s x := by
  have hall : s.Inv ∧ batchSystem.Reachable s ∧ ∀ x, Remembers s x := by
    induction h with
    | init hs =>
      refine ⟨inv_of_start hs, .init hs, fun x => .of_not ?_⟩
      rw [hs.2 x]
      exact unpast_idle
    | step _ _ hs ih =>
      obtain ⟨hi, hreach, hr⟩ := ih
      exact ⟨step_inv hi hs, hreach.step hs, remembers_step hreach hi hr hs⟩
  exact hall.2.2 x

end Runs

end BatchState

section Lifecycle

variable {s s' : BatchState} {a : BatchAction} {b : ℕ}

namespace BatchState

open BatchTables

/-- A batch that is no longer OPEN keeps its members and its total, and its row but for the step
from SEALED to COMPLETE. -/
theorem Inv.closed {f : OxpullBatch} (hi : s.Inv) (h : s.step a = some s')
    (hf : s.db.committed.batches b = some f) (hclosed : f.status ≠ .opened) :
    s'.db.committed.membersOf b = s.db.committed.membersOf b ∧
      ∃ f', s'.db.committed.batches b = some f' ∧ f'.totalCount = f.totalCount ∧
        (f' = f ∨ f.status = .sealed ∧ f'.status = .complete) := by
  cases hi.partStep h b with
  | same hsame =>
    have hrow : s'.db.committed.batches b = some f := (congrArg BatchPart.row hsame).trans hf
    exact ⟨congrArg BatchPart.members hsame, f, hrow, rfl, .inl rfl⟩
  | opened huntaken hrow hcallbacks => exact absurd (huntaken f hf) hclosed
  | completed x i m n f' g sent last ha hc hwin hpart =>
    have hsame : some f = some f' := hf.symm.trans hwin.row
    obtain rfl := Option.some.inj hsame
    have hmembers : s'.db.committed.membersOf b = s.db.committed.membersOf b := by
      have hpart' := congrArg BatchPart.members hpart
      exact hpart'
    have hrow : s'.db.committed.batches b = some g := congrArg BatchPart.row hpart
    exact ⟨hmembers, g, hrow, hwin.completed.2, .inr ⟨hwin.sealed, hwin.completed.1⟩⟩

/-- Only the step that completes a batch enqueues a callback of it. -/
theorem Inv.callbacks_of_step (hi : s.Inv) (h : s.step a = some s') (b : ℕ) :
    (s'.db.committed.part b).callbacks = (s.db.committed.part b).callbacks ∨
      ∃ x f f', a = .leave x ∧ s.db.committed.batches b = some f ∧ f.status = .sealed ∧
        s'.db.committed.batches b = some f' ∧ f'.status = .complete := by
  cases hi.partStep h b with
  | same hsame => exact .inl (congrArg BatchPart.callbacks hsame)
  | opened huntaken hrow hcallbacks => exact .inl hcallbacks
  | completed x i m n f g sent last ha hc hwin hpart =>
    have hrow : s'.db.committed.batches b = some g := congrArg BatchPart.row hpart
    exact .inr ⟨x, f, g, ha, hwin.row, hwin.sealed, hrow, hwin.completed.1⟩

/-- The step that completes a batch. -/
theorem completes_of_step {f : OxpullBatch} (hreach : batchSystem.Reachable s)
    (h : s.step a = some s') (hf : s'.db.committed.batches b = some f)
    (hcomplete : f.status = .complete) (hnew : s.db.committed.batches b ≠ some f) :
    ∃ x f₀ t, a = .leave x ∧ s.db.committed.batches b = some f₀ ∧ f₀.status = .sealed ∧
      batchSystem.Reachable t ∧ Within x b t s ∧
      t.db.committed.membersOf b = s.db.committed.membersOf b ∧
      (∀ m ∈ s.db.committed.membersOf b, ∀ r, t.db.committed.tasks m = some r →
        r.row.status.Settled) ∧
      (.onComplete ∈ (s'.db.committed.part b).callbacks.map (·.role) ↔ f₀.onCompletePath ≠ "") ∧
      (.onSuccess ∈ (s'.db.committed.part b).callbacks.map (·.role) ↔ f₀.onSuccessPath ≠ "" ∧
        ∀ m ∈ s.db.committed.membersOf b, ∃ r, t.db.committed.tasks m = some r ∧
          r.row.status = .successful) := by
  have hi := reachable_inv hreach
  cases hi.partStep h b with
  | same hsame =>
    have hrow : s.db.committed.batches b = some f := (congrArg BatchPart.row hsame).symm.trans hf
    exact absurd hrow hnew
  | opened huntaken hrow hcallbacks => exact absurd hcomplete (hrow f hf)
  | completed x i failed unattributed f₀ g sent last ha hc hwin hpart =>
    obtain ⟨m, n, t, hkeeps, hcounted⟩ := reachable_remembers hreach x b i _ hc rfl
    obtain ⟨rfl, rfl⟩ := hkeeps
    have hmembers : t.db.committed.membersOf b = s.db.committed.membersOf b :=
      congrArg BatchPart.members hcounted.part
    have hdistinct : (t.db.committed.membersOf b).Nodup := by
      rw [hmembers]
      exact (hi.stand.whole b).distinct
    have hclean := clean_iff hcounted.pending hdistinct
    rw [← hcounted.failed, ← hcounted.counted, hmembers] at hclean
    have hroles : (s'.db.committed.part b).callbacks.map (·.role) =
        f₀.completeRoles ++ f₀.successRoles failed
          ((s.db.committed.membersOf b).length - n) := by
      rw [hpart, List.map_map]
      exact hwin.sent
    refine ⟨x, f₀, t, ha, hwin.row, hwin.sealed, hcounted.reachable, hcounted.within, hmembers,
      fun k hk r hr => ?_, ?_, ?_⟩
    · exact settled_of_pendingCount hcounted.pending (hmembers ▸ hk) r hr
    · rw [hroles]
      unfold OxpullBatch.completeRoles OxpullBatch.successRoles
      split_ifs with hp hq hq
      · simp [hp]
      · simp [hp]
      · simp [hp]
      · simp [hp]
    · rw [hroles, ← hclean]
      unfold OxpullBatch.completeRoles OxpullBatch.successRoles
      split_ifs with hp hq hq
      · simp [hq]
      · simp only [List.append_nil, List.not_mem_nil, false_iff]
        tauto
      · simp [hq]
      · simp only [List.append_nil, List.mem_singleton, reduceCtorEq, false_iff]
        tauto

/-- Until it commits, a completion leaves its batch SEALED, with no callback enqueued. -/
theorem Inv.uncompleted {x : ℕ} (hi : s.Inv) (hwon : (s.callers x).call.won = some b) :
    (∃ f, s.db.committed.batches b = some f ∧ f.status = .sealed) ∧
      (s.db.committed.part b).callbacks = [] ∧
      ∀ a s', s.step a = some s' → a.caller = some x → a ≠ .leave x →
        s'.db.committed = s.db.committed := by
  have hcall : ∃ i stage, (s.callers x).call = .completing b i stage := by
    cases hc : (s.callers x).call with
    | completing k i stage =>
      rw [hc] at hwon
      cases stage <;> cases hwon <;> exact ⟨_, _, rfl⟩
    | _ =>
      rw [hc] at hwon
      cases hwon
  obtain ⟨i, stage, hc⟩ := hcall
  obtain ⟨f, g, sent, last, hwin⟩ := hi.winning hc (hc ▸ hwon)
  refine ⟨⟨f, hwin.row, hwin.sealed⟩, ?_, fun a s' h hx ha => ?_⟩
  · exact (hi.stand.whole b).callbacks_eq_nil hwin.row (by simp [hwin.sealed])
  · cases step_commits h with
    | nothing hsame => exact hsame
    | own y hview hidle he =>
      subst he
      obtain rfl := Option.some.inj hx
      rw [hc] at hidle
      cases hidle
    | call y hview hdone he =>
      subst he
      obtain rfl := Option.some.inj hx
      exact absurd rfl ha
    | create y k f' hview hfree hnone hopened hidle he =>
      obtain rfl := Option.some.inj (hx.symm.trans he)
      rw [hc] at hidle
      cases hidle
    | tasks hparts he =>
      rw [he] at hx
      cases hx

end BatchState

end Lifecycle

/-- What a batch keeps over every run: the total of its members from `seal` on; that it completes
once, with each of its callbacks at most once and only in that step; that it completes only where
nothing of it was pending since the compare-and-set, with `on_success` exactly where all of its
members were SUCCESSFUL; and that a completion which does not commit leaves it as it was. -/
theorem batch_lifecycle {s : BatchState} (h : batchSystem.Reachable s) :
    (∀ b f, s.db.committed.batches b = some f → f.status ≠ .opened →
      f.totalCount = some (s.db.committed.membersOf b).length) ∧
    (∀ b, ((s.db.committed.part b).callbacks.map (·.role)).Nodup ∧
      ((s.db.committed.part b).callbacks ≠ [] →
        ∃ f, s.db.committed.batches b = some f ∧ f.status = .complete)) ∧
    (∀ a s', batchSystem.step s a = some s' →
      (∀ b f, s.db.committed.batches b = some f → f.status ≠ .opened →
        s'.db.committed.membersOf b = s.db.committed.membersOf b ∧
        ∃ f', s'.db.committed.batches b = some f' ∧ f'.totalCount = f.totalCount ∧
          (f' = f ∨ f.status = .sealed ∧ f'.status = .complete)) ∧
      (∀ b, (s'.db.committed.part b).callbacks = (s.db.committed.part b).callbacks ∨
        ∃ x f f', a = .leave x ∧ s.db.committed.batches b = some f ∧ f.status = .sealed ∧
          s'.db.committed.batches b = some f' ∧ f'.status = .complete) ∧
      ∀ b f, s'.db.committed.batches b = some f → f.status = .complete →
        s.db.committed.batches b ≠ some f →
        ∃ x f₀ t, a = .leave x ∧ s.db.committed.batches b = some f₀ ∧ f₀.status = .sealed ∧
          batchSystem.Reachable t ∧ BatchState.Within x b t s ∧
          t.db.committed.membersOf b = s.db.committed.membersOf b ∧
          (∀ m ∈ s.db.committed.membersOf b, ∀ r, t.db.committed.tasks m = some r →
            r.row.status.Settled) ∧
          (.onComplete ∈ (s'.db.committed.part b).callbacks.map (·.role) ↔
            f₀.onCompletePath ≠ "") ∧
          (.onSuccess ∈ (s'.db.committed.part b).callbacks.map (·.role) ↔ f₀.onSuccessPath ≠ "" ∧
            ∀ m ∈ s.db.committed.membersOf b, ∃ r, t.db.committed.tasks m = some r ∧
              r.row.status = .successful)) ∧
    (∀ x b, (s.callers x).call.won = some b →
      (∃ f, s.db.committed.batches b = some f ∧ f.status = .sealed) ∧
      (s.db.committed.part b).callbacks = [] ∧
      ∀ a s', batchSystem.step s a = some s' → a.caller = some x → a ≠ .leave x →
        s'.db.committed = s.db.committed) := by
  have hi := BatchState.reachable_inv h
  refine ⟨fun b f hf hclosed => ?_, fun b => ⟨?_, fun hne => ?_⟩, fun a s' hs => ⟨?_, ?_, ?_⟩, ?_⟩
  · exact (hi.stand.whole b).total f hf hclosed
  · exact (hi.stand.whole b).roles
  · by_contra hnot
    refine hne ((hi.stand.whole b).early fun f hf hst => ?_)
    exact hnot ⟨f, hf, hst⟩
  · exact fun b f hf hclosed => hi.closed hs hf hclosed
  · exact fun b => hi.callbacks_of_step hs b
  · exact fun b f hf hcomplete hnew => BatchState.completes_of_step h hs hf hcomplete hnew
  · exact fun x b hwon => hi.uncompleted hwon

/-- Nobody has done anything. -/
def noBatches : BatchState := ⟨Ledger.idle ⟨fun _ => none, [], fun _ => none, []⟩,
  fun _ => ⟨false, false, .idle⟩, []⟩

/-- One statement of an `add` after the other, from its enqueue to its last. -/
def addMember (x : ℕ) (task : TaskId) : List BatchAction :=
  [.enter x, .enqueue x task ⟨"app.tasks.send", "default", 0, none, none⟩ 1 0, .claimOpen x,
    .enterInsert x, .insertMember x, .leaveInsert x, .leave x]

/-- An attempt at a task that succeeds. -/
def succeeds (task : TaskId) : List BatchAction :=
  [.row task (.claimPostgresql (soloWorker "w1") 5 5),
    .row task (.writeOutcome ⟨30, 300⟩ (firstHeld 1) 9 (.returned none))]

/-- A call of a callback's task. -/
def callbackCall (path : String) : Call := ⟨path, "default", 0, none, none⟩

/-- A member of its own transaction and one of a caller's; `seal`; and two reconcilers, of which one
waits for the other. -/
def completedBatch : List BatchAction :=
  [.create 0 7 "app.tasks.done" "app.tasks.clean", .add 0 7] ++ addMember 0 1 ++
    [.begin 1, .add 1 7] ++ addMember 1 2 ++ [.commit 1, .sealOnce 0 7, .enter 0, .flip 0,
      .requireSchedule 0, .countMembers 0, .storeTotal 0, .leave 0] ++ succeeds 1 ++ succeeds 2 ++
    [.complete 2 7, .complete 3 7, .filter 2, .filter 3, .enter 2, .enter 3, .win 2,
      .countTasks 2, .prune 1, .readRow 2, .sendComplete 2 3 (callbackCall "app.tasks.done") 1 9,
      .sendSuccess 2 4 (callbackCall "app.tasks.clean") 1 9, .store 2]

theorem batch_lifecycle_completed :
    ∃ s s', batchSystem.run noBatches completedBatch = some s ∧
      batchSystem.step s (.leave 2) = some s' ∧ s.db.committed.membersOf 7 = [1, 2] ∧
      ∃ t, batchSystem.Reachable t ∧ ∀ m ∈ s.db.committed.membersOf 7,
        ∃ r, t.db.committed.tasks m = some r ∧ r.row.status = .successful := by
  have hrun : ((batchSystem.run noBatches completedBatch).bind fun s =>
      (batchSystem.step s (.leave 2)).map fun s' =>
        (s.db.committed.membersOf 7, (s.db.committed.batches 7).map (·.status),
          (s'.db.committed.batches 7).map (·.status),
          (s'.db.committed.part 7).callbacks.map (·.role))) =
      some ([1, 2], some .sealed, some .complete, [.onComplete, .onSuccess]) := by decide +kernel
  obtain ⟨s, hs, hstep⟩ := Option.bind_eq_some_iff.mp hrun
  obtain ⟨s', hs', hfacts⟩ := Option.map_eq_some_iff.mp hstep
  simp only [Prod.mk.injEq] at hfacts
  obtain ⟨hmembers, hbefore, hafter, hroles⟩ := hfacts
  obtain ⟨f, hf, hcomplete⟩ := Option.map_eq_some_iff.mp hafter
  have hnew : s.db.committed.batches 7 ≠ some f := by
    intro he
    rw [he, Option.map_some, hcomplete] at hbefore
    cases hbefore
  have hreach : batchSystem.Reachable s := .of_run ⟨rfl, fun _ => rfl⟩ hs
  obtain ⟨-, -, hsteps, -⟩ := batch_lifecycle hreach
  obtain ⟨x, f₀, t, -, -, -, ht, -, -, -, -, hsuccess⟩ := (hsteps _ s' hs').2.2 7 f hf hcomplete hnew
  exact ⟨s, s', hs, hs', hmembers, t, ht, (hsuccess.mp (by rw [hroles]; decide)).2⟩

end DjangoOx
