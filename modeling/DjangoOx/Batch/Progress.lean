import DjangoOx.Batch.Completion
import Mathlib.Data.List.Perm.Subperm

/-! `Batch.progress`: three statements, and what the other sessions do between them. -/
namespace DjangoOx

open Machine

structure BatchProgress where
  total : ℕ
  pending : ℕ
  succeeded : ℕ
  failed : ℕ
  deriving DecidableEq, Repr

namespace BatchProgress

def unattributed (p : BatchProgress) : ℕ := p.total - (p.pending + p.succeeded + p.failed)

def finished (p : BatchProgress) : ℤ := p.total - p.pending

end BatchProgress

/-- The total that `progress` reports: the snapshot, or the members counted before the task rows
and raised by them. -/
def OxpullBatch.liveTotal (row : OxpullBatch) (members : ℕ) (counts : Status → ℕ) : ℕ :=
  match row.totalCount with
  | some total => total
  | none => max members (Status.all.map counts).sum

namespace BatchTables

/-- `Batch.progress`: the row is read off `c₀`, the members of a batch without a total are counted
in `c₁`, and the task rows in `c₂`. -/
def progress (c₀ c₁ c₂ : BatchTables) (b : ℕ) : Option BatchProgress :=
  (c₀.batches b).map fun row =>
    ⟨row.liveTotal (c₁.countMembers b) (c₂.memberTaskCounts b),
      pendingCount (c₂.memberTaskCounts b), c₂.memberTaskCounts b .successful,
      c₂.memberTaskCounts b .failed⟩

def status (c : BatchTables) (t : TaskId) : Option Status := (c.tasks t).map (·.row.status)

/-- The members of a batch in that status; `none` for those whose row is gone. -/
def countIn (c : BatchTables) (b : ℕ) (st : Option Status) : ℕ :=
  (c.membersOf b).countP fun t => c.status t = st

/-- The row is settled or gone. -/
def Finished (c : BatchTables) (t : TaskId) : Prop := ∀ st ∈ c.status t, st.Settled

instance (c : BatchTables) (t : TaskId) : Decidable (c.Finished t) :=
  inferInstanceAs (Decidable (∀ st ∈ c.status t, st.Settled))

def countFinished (c : BatchTables) (b : ℕ) : ℕ := (c.membersOf b).countP fun t => c.Finished t

section Counts

variable {c : BatchTables} {b : ℕ}

theorem memberTaskCounts_eq (h : (c.membersOf b).Nodup) (st : Status) :
    c.memberTaskCounts b st = c.countIn b (some st) := by
  unfold memberTaskCounts countIn
  rw [List.dedup_eq_self.mpr h]
  rfl

theorem sum_countIn (c : BatchTables) (b : ℕ) :
    (Status.all.map fun st => c.countIn b (some st)).sum + c.countIn b none =
      c.countMembers b := by
  unfold countIn countMembers
  induction c.membersOf b with
  | nil => rfl
  | cons t l ih =>
    simp only [Status.all, List.map_cons, List.map_nil, List.sum_cons, List.sum_nil,
      List.countP_cons, List.length_cons] at ih ⊢
    cases c.status t with
    | none =>
      simp
      omega
    | some st =>
      cases st <;> simp <;> omega

/-- The statuses by what `progress` makes of them. -/
theorem sum_counts (counts : Status → ℕ) :
    (Status.all.map counts).sum = pendingCount counts + counts .failed + counts .successful +
      counts .lost + counts .discarded := by
  simp only [pendingCount_eq, Status.all, List.map_cons, List.map_nil, List.sum_cons,
    List.sum_nil]
  omega

theorem pendingCount_add_countFinished (c : BatchTables) (b : ℕ) :
    pendingCount (fun st => c.countIn b (some st)) + c.countFinished b = c.countMembers b := by
  rw [pendingCount_eq]
  unfold countIn countFinished countMembers
  induction c.membersOf b with
  | nil => rfl
  | cons t l ih =>
    simp only [List.countP_cons, List.length_cons] at ih ⊢
    cases h : c.status t with
    | none =>
      have hfin : c.Finished t := by simp [Finished, h]
      simp [hfin]
      omega
    | some st =>
      have hfin : c.Finished t ↔ st.Settled := by simp [Finished, h]
      cases st <;> simp [hfin, Status.Settled, Status.Dead] <;> omega

end Counts

/-- Members are only ever added. -/
theorem subset_write (c : BatchTables) (o : BatchWrite) (b : ℕ) :
    c.membersOf b ⊆ (c.write o).membersOf b := by
  intro t ht
  cases o with
  | member m =>
    have hwrite : (c.write (.member m)).members = c.members ++ [m] := rfl
    unfold membersOf at ht ⊢
    rw [hwrite, List.filter_append, List.map_append]
    exact List.mem_append_left _ ht
  | _ => exact ht

theorem subset_foldl (c : BatchTables) (l : List BatchWrite) (b : ℕ) :
    c.membersOf b ⊆ (l.foldl write c).membersOf b := by
  induction l generalizing c with
  | nil => exact List.Subset.refl _
  | cons o l ih => exact List.Subset.trans (c.subset_write o b) (ih (c.write o))

end BatchTables

namespace BatchState

open BatchTables

section Others

variable {s s' : BatchState} {x b : ℕ} {a : BatchAction}

/-- The others leave a session its writes and its locks. -/
theorem spares_of_step (h : s.step a = some s') (hx : a.caller ≠ some x) :
    s'.db.work x = s.db.work x ∧ ∀ k, s.db.holder k = some x → s'.db.holder k = some x := by
  suffices hspares : ∃ y, x ≠ y ∧ Ledger.Spares y s.db s'.db by
    obtain ⟨y, hne, hs⟩ := hspares
    exact ⟨hs.work x hne, hs.holder x hne⟩
  have hne : ∀ y, a.caller = some y → x ≠ y := fun y hy he => hx (he ▸ hy)
  rcases step_cases h with h | h | h | h | h
  · cases a with
    | create y k onComplete onSuccess =>
      obtain ⟨⟨-, hfree, -⟩, h⟩ := Option.ite_none_right_eq_some.mp h
      refine ⟨y, hne y rfl, ?_⟩
      split_ifs at h
      · obtain rfl := Option.some.inj h
        exact (Ledger.spares_lock (.inl hfree)).trans Ledger.spares_write
      · obtain rfl := Option.some.inj h
        exact Ledger.spares_put
    | _ =>
      simp only [stepCaller] at h
      repeat' split at h
      all_goals cases h
      all_goals refine ⟨_, hne _ rfl, ?_⟩
      all_goals first
        | exact .refl
        | exact Ledger.spares_save
        | exact Ledger.spares_forget
        | exact Ledger.spares_undo
        | exact Ledger.spares_commit
        | exact Ledger.spares_rollback
  · cases a <;> simp only [stepCall] at h
    all_goals repeat' split at h
    all_goals cases h
    all_goals refine ⟨_, hne _ rfl, ?_⟩
    all_goals first
      | exact .refl
      | exact Ledger.spares_write
      | exact Ledger.spares_save
      | exact Ledger.spares_forget
      | exact (Ledger.spares_lock ‹_›).trans Ledger.spares_write
      | exact Ledger.spares_lock ‹_›
  · cases a <;> simp only [stepComplete] at h
    all_goals repeat' split at h
    all_goals cases h
    all_goals refine ⟨_, hne _ rfl, ?_⟩
    all_goals first
      | exact .refl
      | exact Ledger.spares_write
      | exact (Ledger.spares_lock ‹_›).trans Ledger.spares_write
  · cases a <;> simp only [stepBlock] at h
    all_goals repeat' split at h
    all_goals cases h
    all_goals refine ⟨_, hne _ rfl, ?_⟩
    all_goals simp only [went, setDb, setCall, setCaller]
    all_goals first
      | exact .refl
      | exact Ledger.spares_save
      | exact Ledger.spares_forget
      | exact Ledger.spares_undo
      | exact Ledger.spares_commit
      | exact Ledger.spares_rollback
  · refine ⟨x + 1, by omega, ?_⟩
    cases a with
    | row t action =>
      obtain ⟨r, -, rfl⟩ := Option.map_eq_some_iff.mp h
      exact Ledger.spares_put
    | _ =>
      simp only [stepOther] at h
      repeat' split at h
      all_goals cases h
      all_goals exact Ledger.spares_put

/-- Nothing is committed under a lock of another session. -/
theorem Inv.part_of_held (hi : s.Inv) (h : s.step a = some s') (hx : a.caller ≠ some x)
    (hk : s.db.holder b = some x) : s'.db.committed.part b = s.db.committed.part b := by
  have hother : ∀ y, a.caller = some y → x ≠ y := fun y hy he => hx (he ▸ hy)
  cases step_commits h with
  | nothing hsame => rw [hsame]
  | tasks hsame ha => exact hsame b
  | own y hview hc ha =>
    rw [hview]
    exact projects.commit_other (hi.stand.each y).guarded (hother y (by rw [ha]; rfl)) b hk
  | call y hview hc ha =>
    rw [hview]
    exact projects.commit_other (hi.stand.each y).guarded (hother y (by rw [ha]; rfl)) b hk
  | create y k f hview hfree hnone hf hc ha =>
    rw [hview]
    apply projects.skip
    intro he
    obtain rfl := Option.some.inj he
    rw [hfree] at hk
    cases hk

theorem members_grow (h : s.step a = some s') (b : ℕ) :
    s.db.committed.membersOf b ⊆ s'.db.committed.membersOf b := by
  cases step_commits h with
  | nothing hsame => rw [hsame]; exact List.Subset.refl _
  | tasks hsame ha =>
    have hmembers : s'.db.committed.membersOf b = s.db.committed.membersOf b :=
      congrArg BatchPart.members (hsame b)
    rw [hmembers]
    exact List.Subset.refl _
  | own y hview hc ha =>
    rw [hview]
    exact subset_foldl ..
  | call y hview hc ha =>
    rw [hview]
    exact subset_foldl ..
  | create y k f hview hfree hnone hf hc ha =>
    rw [hview]
    exact subset_write ..

/-- What a session sees of a batch as the others go on: no member goes, and a batch that is no
longer OPEN keeps its members and its total. -/
structure Grows (b : ℕ) (c c' : BatchTables) : Prop where
  members : c.membersOf b ⊆ c'.membersOf b
  closed : ∀ f, c.batches b = some f → f.status ≠ .opened → c'.membersOf b = c.membersOf b ∧
    ∃ f', c'.batches b = some f' ∧ f'.status ≠ .opened

theorem Grows.refl (b : ℕ) (c : BatchTables) : Grows b c c :=
  ⟨List.Subset.refl _, fun f hf hclosed => ⟨rfl, f, hf, hclosed⟩⟩

theorem Grows.of_part {c c' : BatchTables} (h : c'.part b = c.part b) : Grows b c c' := by
  have hmembers : c'.membersOf b = c.membersOf b := congrArg BatchPart.members h
  have hrow : c'.batches b = c.batches b := congrArg BatchPart.row h
  refine ⟨by rw [hmembers]; exact List.Subset.refl _, fun f hf hclosed => ⟨hmembers, f, ?_, hclosed⟩⟩
  rw [hrow]
  exact hf

theorem Grows.trans {c c' c'' : BatchTables} (h : Grows b c c') (h' : Grows b c' c'') :
    Grows b c c'' := by
  refine ⟨List.Subset.trans h.members h'.members, fun f hf hclosed => ?_⟩
  obtain ⟨hsame, f', hf', hclosed'⟩ := h.closed f hf hclosed
  obtain ⟨hsame', hlast⟩ := h'.closed f' hf' hclosed'
  exact ⟨hsame'.trans hsame, hlast⟩

theorem Inv.grows (hi : s.Inv) (h : s.step a = some s') (hx : a.caller ≠ some x) (b : ℕ) :
    Grows b (s.view x) (s'.view x) := by
  obtain ⟨hwork, -⟩ := spares_of_step h hx
  have hview : s'.view x = (s.db.work x).foldl write s'.db.committed := by
    unfold view Ledger.view
    rw [hwork]
  by_cases hk : s.db.holder b = some x
  · apply Grows.of_part
    rw [hview]
    exact projects.foldl_congr (hi.part_of_held h hx hk)
  · have hskip : ∀ c : BatchTables, ((s.db.work x).foldl write c).part b = c.part b := fun c =>
      projects.foldl_skip fun o ho hb => hk ((hi.stands x).guarded.work o ho b hb)
    have hbefore : (s.view x).part b = s.db.committed.part b := hskip _
    have hafter : (s'.view x).part b = s'.db.committed.part b := hview ▸ hskip _
    have hgrows : Grows b s.db.committed s'.db.committed := by
      refine ⟨members_grow h b, fun f hf hclosed => ?_⟩
      obtain ⟨hmembers, f', hf', -, hsame⟩ := hi.closed h hf hclosed
      refine ⟨hmembers, f', hf', ?_⟩
      rcases hsame with rfl | ⟨-, hcomplete⟩
      · exact hclosed
      · simp [hcomplete]
    exact ((Grows.of_part hbefore.symm).trans hgrows).trans (.of_part hafter)

/-- The others go on, any number of steps. -/
theorem Inv.grows_run {as : List BatchAction} (hi : s.Inv) (h : batchSystem.run s as = some s')
    (hx : ∀ a ∈ as, a.caller ≠ some x) (b : ℕ) :
    s'.Inv ∧ s'.callers x = s.callers x ∧ Grows b (s.view x) (s'.view x) := by
  induction as generalizing s with
  | nil =>
    obtain rfl := Option.some.inj h
    exact ⟨hi, rfl, .refl b _⟩
  | cons a as ih =>
    obtain ⟨t, ht, hrest⟩ := Option.bind_eq_some_iff.mp h
    have hne := hx a List.mem_cons_self
    obtain ⟨hinv, hcallers, hgrows⟩ :=
      ih (step_inv hi ht) hrest fun q hq => hx q (List.mem_cons_of_mem _ hq)
    exact ⟨hinv, hcallers.trans (callers_of_step ht hne), (hi.grows ht hne b).trans hgrows⟩

end Others

end BatchState

/-- What `progress` reports, whatever the other sessions do between its statements: the task rows as
the last statement found them; no more finished than are; and of a batch that was no longer OPEN the
total that `seal` froze, what is settled or gone, and what of it says neither success nor failure. -/
theorem progress_sound {s₀ s₁ s₂ : BatchState} {x b : ℕ} {as bs : List BatchAction}
    {p : BatchProgress} (h₀ : batchSystem.Reachable s₀) (hidle : (s₀.callers x).call = .idle)
    (h₁ : batchSystem.run s₀ as = some s₁) (h₂ : batchSystem.run s₁ bs = some s₂)
    (hx : ∀ a ∈ as ++ bs, a.caller ≠ some x)
    (hp : BatchTables.progress (s₀.view x) (s₁.view x) (s₂.view x) b = some p) :
    (p.pending + (s₂.view x).countFinished b = (s₂.view x).countMembers b ∧
      p.succeeded = (s₂.view x).countIn b (some .successful) ∧
      p.failed = (s₂.view x).countIn b (some .failed)) ∧
    (p.pending + p.succeeded + p.failed ≤ p.total ∧ p.total ≤ (s₂.view x).countMembers b ∧
      0 ≤ p.finished ∧ p.finished ≤ (s₂.view x).countFinished b) ∧
    ∀ f, (s₀.view x).batches b = some f → f.status ≠ .opened →
      p.total = (s₀.view x).countMembers b ∧ p.finished = (s₂.view x).countFinished b ∧
      p.unattributed = (s₂.view x).countIn b (some .lost) +
        (s₂.view x).countIn b (some .discarded) + (s₂.view x).countIn b none := by
  have hi₀ := BatchState.reachable_inv h₀
  obtain ⟨hi₁, hcallers₁, hgrows₁⟩ :=
    hi₀.grows_run h₁ (fun a ha => hx a (List.mem_append_left _ ha)) b
  obtain ⟨hi₂, hcallers₂, hgrows₂⟩ :=
    hi₁.grows_run h₂ (fun a ha => hx a (List.mem_append_right _ ha)) b
  have hwhole₀ := hi₀.idle hidle b
  have hwhole₁ := hi₁.idle (by rw [hcallers₁]; exact hidle) b
  have hwhole₂ := hi₂.idle (by rw [hcallers₂, hcallers₁]; exact hidle) b
  have hcounts : (s₂.view x).memberTaskCounts b = fun st => (s₂.view x).countIn b (some st) :=
    funext (BatchTables.memberTaskCounts_eq hwhole₂.distinct)
  have hsum := (s₂.view x).sum_countIn b
  have hfinished := (s₂.view x).pendingCount_add_countFinished b
  have hall := BatchTables.sum_counts fun st => (s₂.view x).countIn b (some st)
  have hlive : (s₁.view x).countMembers b ≤ (s₂.view x).countMembers b :=
    (List.subperm_of_subset hwhole₁.distinct hgrows₂.members).length_le
  obtain ⟨row, hrow, rfl⟩ := Option.map_eq_some_iff.mp hp
  rw [hcounts]
  have hclosed : row.status ≠ .opened → row.totalCount = some ((s₀.view x).countMembers b) ∧
      (s₂.view x).countMembers b = (s₀.view x).countMembers b := by
    intro hst
    have hmembers := ((hgrows₁.trans hgrows₂).closed row hrow hst).1
    exact ⟨hwhole₀.total row hrow hst, congrArg List.length hmembers⟩
  have htotal : row.liveTotal ((s₁.view x).countMembers b)
        (fun st => (s₂.view x).countIn b (some st)) ≤ (s₂.view x).countMembers b ∧
      (Status.all.map fun st => (s₂.view x).countIn b (some st)).sum ≤
        row.liveTotal ((s₁.view x).countMembers b)
          (fun st => (s₂.view x).countIn b (some st)) := by
    unfold OxpullBatch.liveTotal
    by_cases hst : row.status = .opened
    · rw [hwhole₀.unset row hrow hst]
      constructor
      · exact max_le hlive (by omega)
      · exact le_max_right ..
    · obtain ⟨hset, hsame⟩ := hclosed hst
      rw [hset]
      constructor
      · exact hsame.ge
      · show _ ≤ (s₀.view x).countMembers b
        omega
  obtain ⟨hle, hge⟩ := htotal
  refine ⟨⟨hfinished, rfl, rfl⟩, ⟨?_, hle, ?_, ?_⟩, fun f hf hst => ?_⟩
  · dsimp only
    omega
  · unfold BatchProgress.finished
    dsimp only
    omega
  · unfold BatchProgress.finished
    dsimp only
    omega
  · obtain rfl := Option.some.inj (hrow.symm.trans hf)
    obtain ⟨hset, hsame⟩ := hclosed hst
    have hfrozen : row.liveTotal ((s₁.view x).countMembers b)
        (fun st => (s₂.view x).countIn b (some st)) = (s₀.view x).countMembers b := by
      unfold OxpullBatch.liveTotal
      rw [hset]
    unfold BatchProgress.finished BatchProgress.unattributed
    rw [hfrozen]
    refine ⟨rfl, ?_, ?_⟩
    · dsimp only
      omega
    · dsimp only
      omega

/-- A member joins between the first two statements, and another succeeds between the last two. -/
theorem progress_sound_joining :
    ∃ s₀ s₁ s₂ p, batchSystem.run noBatches
        ([.create 0 7 "" "", .add 0 7] ++ addMember 0 1) = some s₀ ∧
      batchSystem.run s₀ (.add 0 7 :: addMember 0 2) = some s₁ ∧
      batchSystem.run s₁ (succeeds 1) = some s₂ ∧
      BatchTables.progress (s₀.view 9) (s₁.view 9) (s₂.view 9) 7 = some p ∧
      p = ⟨2, 1, 1, 0⟩ ∧ p.finished ≤ (s₂.view 9).countFinished 7 := by
  have hrun : ((batchSystem.run noBatches
        ([.create 0 7 "" "", .add 0 7] ++ addMember 0 1)).bind fun s₀ =>
      (batchSystem.run s₀ (.add 0 7 :: addMember 0 2)).bind fun s₁ =>
        (batchSystem.run s₁ (succeeds 1)).map fun s₂ => ((s₀.callers 9).call,
          BatchTables.progress (s₀.view 9) (s₁.view 9) (s₂.view 9) 7)) =
      some (.idle, some ⟨2, 1, 1, 0⟩) := by decide +kernel
  obtain ⟨s₀, h₀, hrun⟩ := Option.bind_eq_some_iff.mp hrun
  obtain ⟨s₁, h₁, hrun⟩ := Option.bind_eq_some_iff.mp hrun
  obtain ⟨s₂, h₂, hfacts⟩ := Option.map_eq_some_iff.mp hrun
  obtain ⟨hidle, hp⟩ := Prod.mk.injEq .. ▸ hfacts
  have hreach : batchSystem.Reachable s₀ := .of_run ⟨rfl, fun _ => rfl⟩ h₀
  have hothers : ∀ a ∈ (.add 0 7 :: addMember 0 2) ++ succeeds 1,
      BatchAction.caller a ≠ some 9 := by decide
  have hsound := progress_sound hreach hidle h₁ h₂ hothers hp
  exact ⟨s₀, s₁, s₂, _, h₀, h₁, h₂, hp, rfl, hsound.2.1.2.2.2⟩

end DjangoOx
