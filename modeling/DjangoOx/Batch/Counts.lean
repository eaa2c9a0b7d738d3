import DjangoOx.Batch.Lifecycle

/-! What a run of adds, seals and completions keeps of the batches that are committed, and of what
each session's transaction sees of them. -/
namespace DjangoOx

open Machine

namespace BatchPart

/-- A batch holds its total once it is no longer OPEN, callbacks are enqueued only with COMPLETE,
and each of them once. -/
structure Whole (a : BatchPart) : Prop where
  absent : a.row = none → a.members = []
  unset : ∀ f, a.row = some f → f.status = .opened → f.totalCount = none
  total : ∀ f, a.row = some f → f.status ≠ .opened → f.totalCount = some a.members.length
  early : (∀ f, a.row = some f → f.status ≠ .complete) → a.callbacks = []
  roles : (a.callbacks.map (·.role)).Nodup
  distinct : a.members.Nodup

def Opened (a : BatchPart) : Prop := ∃ f, a.row = some f ∧ f.status = .opened

/-- SEALED, with the total still to be written. -/
def Unsealed (a : BatchPart) : Prop :=
  (∃ f, a.row = some f ∧ f.status = .sealed) ∧ a.callbacks = [] ∧ a.members.Nodup

/-- No row that is not OPEN. -/
def Untaken (a : BatchPart) : Prop := ∀ f, a.row = some f → f.status = .opened

end BatchPart

/-- A write that completes nothing. -/
def BatchWrite.Plain : BatchWrite → Prop
  | .batch _ f => f.status ≠ .complete
  | .callback _ _ => False
  | .member _ | .task _ _ => True

namespace BatchCall

/-- The batch whose lock the call holds and that it has something to write to yet. -/
def owes : BatchCall → Option ℕ
  | .adding b _ (.claimed _) | .adding b _ (.inserting _) => some b
  | .sealing b .flipped | .sealing b .checked | .sealing b (.counted _) => some b
  | _ => none

def owed : BatchCall → BatchPart → Prop
  | .adding .. => fun a => a.Whole ∧ a.Opened
  | .sealing _ (.counted n) => fun a => a.Unsealed ∧ a.members.length = n
  | .sealing .. => fun a => a.Unsealed
  | _ => fun _ => True

/-- Only a completion writes to a batch that is not OPEN, and completes it. -/
def touches : BatchCall → BatchWrite → BatchPart → Prop
  | .completing .. => fun _ _ => True
  | _ => fun o a => o.Plain ∧ a.Untaken

def promise (c : BatchCall) : Promise BatchWrite ℕ BatchPart where
  steady := c.failing = false
  owes := c.owes
  owed := c.owed
  depth := c.inner
  touches := c.touches

/-- Not a completion. -/
def Ordinary (c : BatchCall) : Prop := ∀ b i stage, c ≠ .completing b i stage

variable {c : BatchCall}

theorem Ordinary.touches (h : c.Ordinary) : c.touches = fun o a => o.Plain ∧ a.Untaken := by
  cases c with
  | completing b i stage => exact absurd rfl (h b i stage)
  | _ => rfl

theorem ordinary_idle : idle.Ordinary := fun _ _ _ h => by cases h

theorem ordinary_adding (b i : ℕ) (stage : MemberStage) : (adding b i stage).Ordinary :=
  fun _ _ _ h => by cases h

theorem ordinary_sealing (b : ℕ) (stage : BatchSealStage) : (sealing b stage).Ordinary :=
  fun _ _ _ h => by cases h

theorem inner_le (c : BatchCall) : c.inner ≤ 1 := by
  unfold inner
  split <;> omega

end BatchCall

namespace BatchTables

variable {c c' : BatchTables} {b : ℕ} {f : OxpullBatch} {o : BatchWrite}

theorem projects : Ledger.Projects write BatchWrite.key part where
  skip c o b h := by
    cases o with
    | batch v f =>
      have hne : b ≠ v := fun he => h (he ▸ rfl)
      simp [part, membersOf, write, hne]
    | task t r => rfl
    | member m =>
      have hne : ¬ m.batch = b := fun he => h (he ▸ rfl)
      simp [part, membersOf, write, hne]
    | callback k r =>
      have hne : ¬ k.batch = b := fun he => h (he ▸ rfl)
      simp [part, membersOf, write, hne]
  congr c c' o b h := by
    have hrow : c.batches b = c'.batches b := congrArg BatchPart.row h
    have hmembers : c.membersOf b = c'.membersOf b := congrArg BatchPart.members h
    have hcallbacks : c.callbacks.filter (·.batch = b) = c'.callbacks.filter (·.batch = b) :=
      congrArg BatchPart.callbacks h
    unfold membersOf at hmembers
    cases o with
    | batch v f =>
      by_cases he : b = v
      · simp [part, membersOf, write, he ▸ hmembers, he ▸ hcallbacks, he]
      · simp [part, membersOf, write, hrow, hmembers, hcallbacks, he]
    | task t r => exact h
    | member m => simp [part, membersOf, write, hrow, hmembers, hcallbacks]
    | callback k r => simp [part, membersOf, write, hrow, hmembers, hcallbacks]

theorem part_batch : (c.write (.batch b f)).part b =
    ⟨some f, (c.part b).members, (c.part b).callbacks⟩ := by
  simp [part, membersOf, write]

theorem part_member (m : OxpullBatchMember) : (c.write (.member m)).part m.batch =
    ⟨(c.part m.batch).row, (c.part m.batch).members ++ [m.task], (c.part m.batch).callbacks⟩ := by
  simp [part, membersOf, write]

theorem part_callback (k : Callback) (r : RowState) : (c.write (.callback k r)).part k.batch =
    ⟨(c.part k.batch).row, (c.part k.batch).members, (c.part k.batch).callbacks ++ [k]⟩ := by
  simp [part, membersOf, write]

end BatchTables

namespace BatchTables

/-- One batch is written to. -/
theorem whole_write {c : BatchTables} {b : ℕ} {o : BatchWrite} (hkey : ∀ j ∈ o.key, j = b)
    (h : ∀ k, k ≠ b → (c.part k).Whole) (hb : ((c.write o).part b).Whole) (k : ℕ) :
    ((c.write o).part k).Whole := by
  by_cases hk : k = b
  · subst hk
    exact hb
  · rw [projects.skip c o k fun he => hk (hkey k he)]
    exact h k hk

theorem whole_batch {c : BatchTables} {b : ℕ} {f : OxpullBatch} (h : ∀ k, (c.part k).Whole)
    (hb : BatchPart.Whole ⟨some f, (c.part b).members, (c.part b).callbacks⟩) (k : ℕ) :
    ((c.write (.batch b f)).part k).Whole := by
  have hkey : ∀ j ∈ (BatchWrite.batch b f).key, j = b := fun j hj => (Option.some.inj hj).symm
  apply whole_write hkey fun j _ => h j
  rw [part_batch]
  exact hb

end BatchTables

namespace BatchPart

variable {a : BatchPart} {f g : OxpullBatch} {l : List Callback}

theorem whole_new (h : a.Whole) (hnone : a.row = none) (hf : f.status = .opened)
    (hunset : f.totalCount = none) : Whole ⟨some f, a.members, a.callbacks⟩ where
  absent h := by cases h
  unset g hg _ := by
    obtain rfl := Option.some.inj hg
    exact hunset
  total g hg hne := by
    obtain rfl := Option.some.inj hg
    exact absurd hf hne
  early _ := h.early fun g hg => by simp [hnone] at hg
  roles := h.roles
  distinct := h.distinct

theorem Whole.same (h : a.Whole) (hf : a.row = some f) : Whole ⟨some f, a.members, a.callbacks⟩ := by
  rw [← hf]
  exact h

theorem Whole.member {t : TaskId} (h : a.Whole) (ho : a.Opened) (ht : t ∉ a.members) :
    Whole ⟨a.row, a.members ++ [t], a.callbacks⟩ := by
  obtain ⟨f, hf, hst⟩ := ho
  have hdistinct : (a.members ++ [t]).Nodup := by
    refine List.nodup_append.mpr ⟨h.distinct, by simp, fun u hu v hv he => ht ?_⟩
    rw [← List.mem_singleton.mp hv, ← he]
    exact hu
  refine ⟨fun hn => ?_, h.unset, fun g hg hne => ?_, h.early, h.roles, hdistinct⟩
  · change a.row = none at hn
    rw [hf] at hn
    cases hn
  · change a.row = some g at hg
    rw [hf] at hg
    obtain rfl := Option.some.inj hg
    exact absurd hst hne

theorem Whole.flipped (h : a.Whole) (hf : a.row = some f) (ho : f.status = .opened) :
    Unsealed ⟨some { f with status := .sealed }, a.members, a.callbacks⟩ := by
  refine ⟨⟨_, rfl, rfl⟩, h.early fun g hg => ?_, h.distinct⟩
  rw [hf] at hg
  obtain rfl := Option.some.inj hg
  simp [ho]

theorem Unsealed.whole (h : a.Unsealed) (hf : a.row = some f) {n : ℕ} (hn : a.members.length = n) :
    Whole ⟨some { f with totalCount := some n }, a.members, a.callbacks⟩ := by
  obtain ⟨⟨g, hg, hst⟩, hcallbacks, hdistinct⟩ := h
  rw [hf] at hg
  obtain rfl := Option.some.inj hg
  refine ⟨fun h => (by cases h), fun k hk ho => ?_, fun k hk _ => ?_, fun _ => hcallbacks, ?_,
    hdistinct⟩
  · obtain rfl := Option.some.inj hk
    have hopened : f.status = .opened := ho
    rw [hst] at hopened
    cases hopened
  · obtain rfl := Option.some.inj hk
    exact congrArg some hn.symm
  · change (a.callbacks.map _).Nodup
    rw [hcallbacks]
    exact List.nodup_nil

/-- A completion writes to a row that was SEALED. -/
theorem Whole.completed (h : a.Whole) (hf : a.row = some f) (hst : f.status = .sealed)
    (hg : g.status = .complete) (htotal : g.totalCount = f.totalCount)
    (hroles : (l.map (·.role)).Nodup) : Whole ⟨some g, a.members, l⟩ := by
  refine ⟨fun h => (by cases h), fun k hk ho => ?_, fun k hk _ => ?_, fun hne => ?_, hroles,
    h.distinct⟩
  · obtain rfl := Option.some.inj hk
    rw [hg] at ho
    cases ho
  · obtain rfl := Option.some.inj hk
    rw [htotal]
    exact h.total f hf (by simp [hst])
  · exact absurd hg (hne g rfl)

theorem Whole.callbacks_eq_nil (h : a.Whole) (hf : a.row = some f) (hst : f.status ≠ .complete) :
    a.callbacks = [] := by
  apply h.early
  intro g hg
  rw [hf] at hg
  obtain rfl := Option.some.inj hg
  exact hst

end BatchPart

/-- The callbacks of a completion that found so many failed and unattributed. -/
def OxpullBatch.completeRoles (f : OxpullBatch) : List CallbackRole :=
  if f.onCompletePath = "" then [] else [.onComplete]

def OxpullBatch.successRoles (f : OxpullBatch) (failed unattributed : ℕ) : List CallbackRole :=
  if failed = 0 ∧ unattributed = 0 ∧ f.onSuccessPath ≠ "" then [.onSuccess] else []

/-- What a completion of `f` has read, and which callbacks it has enqueued, where it stands. -/
def CompleteStage.Sent (f : OxpullBatch) (roles : List CallbackRole) : CompleteStage → Prop
  | .totalless _ _ row => roles = [] ∧ row = { f with status := .complete }
  | .totalled _ _ row columns =>
    roles = [] ∧ row = { f with status := .complete } ∧
      columns.totalCount.or f.totalCount = f.totalCount
  | .completeSent _ _ row columns =>
    roles = f.completeRoles ∧ row = { f with status := .complete } ∧
      columns.totalCount.or f.totalCount = f.totalCount
  | .successSent failed unattributed columns =>
    roles = f.completeRoles ++ f.successRoles failed unattributed ∧
      columns.totalCount.or f.totalCount = f.totalCount
  | .stored failed unattributed => roles = f.completeRoles ++ f.successRoles failed unattributed
  | _ => roles = []

namespace BatchState

open BatchTables

abbrev Stands (db : Ledger BatchTables BatchWrite ℕ ℕ) (x : ℕ) (c : BatchCall) : Prop :=
  Ledger.Standing write BatchWrite.key part BatchPart.Whole db x c.promise

/-- A caller outside a transaction has written nothing, and the savepoints of a call are there. -/
structure BlockOk (u : BatchCaller) (work : List BatchWrite)
    (saves : List (Savepoint BatchWrite ℕ)) : Prop where
  outside : u.call.inside = false → u.opened = false → work = [] ∧ saves = []
  inside : u.call.inside = true → u.call.inner + u.opened.toNat ≤ saves.length

/-- What a transaction that has won a batch has written: the row, the callbacks, and their
columns. -/
structure Winning (db : Ledger BatchTables BatchWrite ℕ ℕ) (x b : ℕ) (stage : CompleteStage)
    (f g : OxpullBatch) (sent : List (Callback × RowState)) (last : List BatchWrite) : Prop where
  held : db.holder b = some x
  row : db.committed.batches b = some f
  sealed : f.status = .sealed
  work : db.work x = .batch b { f with status := .complete } ::
    (sent.map (fun c => BatchWrite.callback c.1 c.2) ++ last)
  own : ∀ c ∈ sent, c.1.batch = b
  last : last = [] ∧ g = { f with status := .complete } ∨
    (∃ failed unattributed, stage = .stored failed unattributed) ∧ last = [.batch b g] ∧
      g.status = .complete ∧ g.totalCount = f.totalCount
  sent : stage.Sent f (sent.map (·.1.role))

/-- Where a completion stands. -/
def CompleteOk (db : Ledger BatchTables BatchWrite ℕ ℕ) (u : BatchCaller) (x : ℕ) : Prop :=
  ∀ b i stage, u.call = .completing b i stage → u.opened = false ∧ db.saves x = [] ∧
    (u.call.failing = false → u.call.won = none → db.work x = []) ∧
    (u.call.won = some b → ∃ f g sent last, Winning db x b stage f g sent last)

structure Inv (s : BatchState) : Prop where
  stand : Ledger.AllStand write BatchWrite.key part BatchPart.Whole s.db
    fun x => (s.callers x).call.promise
  block : ∀ x, BlockOk (s.callers x) (s.db.work x) (s.db.saves x)
  complete : ∀ x, CompleteOk s.db (s.callers x) x

section Step

variable {s s' : BatchState} {x y b : ℕ} {u : BatchCaller} {c : BatchTables}
  {db db' : Ledger BatchTables BatchWrite ℕ ℕ} {stage : CompleteStage} {f g : OxpullBatch}
  {sent : List (Callback × RowState)} {last : List BatchWrite}

theorem CompleteOk.of_ordinary (h : u.call.Ordinary) : CompleteOk db u x :=
  fun b i stage hc => absurd hc (h b i stage)

/-- A transaction that has won a batch keeps it while the others go on. -/
theorem Winning.moved (h : Winning db y b stage f g sent last) (hs : Ledger.Spares x db db')
    (hy : y ≠ x)
    (hc : ∀ k, db.holder k = some y → db'.committed.part k = db.committed.part k) :
    Winning db' y b stage f g sent last where
  held := hs.holder y hy b h.held
  row := (congrArg BatchPart.row (hc b h.held)).trans h.row
  sealed := h.sealed
  work := (hs.work y hy).trans h.work
  own := h.own
  last := h.last
  sent := h.sent

theorem CompleteOk.moved (h : CompleteOk db u y) (hs : Ledger.Spares x db db') (hy : y ≠ x)
    (hc : ∀ k, db.holder k = some y → db'.committed.part k = db.committed.part k) :
    CompleteOk db' u y := by
  intro b i stage hcall
  obtain ⟨ho, hsaves, hnone, hwon⟩ := h b i stage hcall
  refine ⟨ho, (hs.saves y hy).trans hsaves, fun hf hn => (hs.work y hy).trans (hnone hf hn), fun hw => ?_⟩
  obtain ⟨f, g, sent, last, hwin⟩ := hwon hw
  exact ⟨f, g, sent, last, hwin.moved hs hy hc⟩

/-- A step of one session that commits nothing. -/
theorem Inv.own (hi : s.Inv) (hs : Ledger.Spares x s.db db) (hc : db.committed = s.db.committed)
    (hx : Stands db x u.call) (hblock : BlockOk u (db.work x) (db.saves x))
    (hcomplete : CompleteOk db u x) (hdb : s'.db = db)
    (hcallers : s'.callers = Function.update s.callers x u) : s'.Inv := by
  have hself : s'.callers x = u := by
    rw [hcallers]
    exact Function.update_self ..
  have hothers : ∀ y, y ≠ x → s'.callers y = s.callers y := by
    intro y hy
    rw [hcallers]
    exact Function.update_of_ne hy ..
  refine ⟨?_, fun y => ?_, fun y => ?_⟩
  · rw [hdb]
    refine hi.stand.own projects hs hc (fun y hy => ?_) ?_
    · rw [hothers y hy]
    · rw [hself]
      exact hx
  · rw [hdb]
    by_cases hy : y = x
    · subst hy
      rw [hself]
      exact hblock
    · rw [hothers y hy, hs.work y hy, hs.saves y hy]
      exact hi.block y
  · rw [hdb]
    by_cases hy : y = x
    · subst hy
      rw [hself]
      exact hcomplete
    · rw [hothers y hy]
      exact (hi.complete y).moved hs hy fun k _ => by rw [hc]

/-- A session commits, and is outside. -/
theorem Inv.commit (hi : s.Inv) (hwhole : ∀ k, ((s.view x).part k).Whole)
    (hidle : u.call = .idle) (hdb : s'.db = s.db.commit write x)
    (hcallers : s'.callers = Function.update s.callers x u) : s'.Inv := by
  have hself : s'.callers x = u := by
    rw [hcallers]
    exact Function.update_self ..
  have hothers : ∀ y, y ≠ x → s'.callers y = s.callers y := by
    intro y hy
    rw [hcallers]
    exact Function.update_of_ne hy ..
  have hs : Ledger.Spares x s.db (s.db.commit write x) := Ledger.spares_commit
  refine ⟨?_, fun y => ?_, fun y => ?_⟩
  · rw [hdb]
    refine hi.stand.commit projects hwhole (fun y hy => ?_) ?_
    · rw [hothers y hy]
    · rw [hself, hidle]
      rfl
  · rw [hdb]
    by_cases hy : y = x
    · subst hy
      rw [hself]
      have hwork : (s.db.commit write y).work y = [] := Function.update_self ..
      have hsaves : (s.db.commit write y).saves y = [] := Function.update_self ..
      exact ⟨fun _ _ => ⟨hwork, hsaves⟩, fun h => by simp [hidle, BatchCall.inside] at h⟩
    · rw [hothers y hy, hs.work y hy, hs.saves y hy]
      exact hi.block y
  · rw [hdb]
    by_cases hy : y = x
    · subst hy
      rw [hself]
      exact .of_ordinary (hidle ▸ BatchCall.ordinary_idle)
    · rw [hothers y hy]
      exact (hi.complete y).moved hs hy fun k hk =>
        projects.commit_other (hi.stand.each x).guarded hy k hk

/-- A session's transaction is rolled back, and the session is outside or begins again. -/
theorem Inv.rolledBack (hi : s.Inv) (hidle : u.call = .idle ∨ u.call.inside = false ∧
      u.call.owes = none ∧ (u.call.Ordinary ∨ u.opened = false ∧ u.call.won = none))
    (hdb : s'.db = s.db.rollback x) (hcallers : s'.callers = Function.update s.callers x u) :
    s'.Inv := by
  have hwork : (s.db.rollback x).work x = [] := Function.update_self ..
  have hsaves : (s.db.rollback x).saves x = [] := Function.update_self ..
  have hout : u.call.inside = false ∧ u.call.owes = none := by
    rcases hidle with hidle | ⟨hin, howes, -⟩
    · rw [hidle]
      exact ⟨rfl, rfl⟩
    · exact ⟨hin, howes⟩
  refine hi.own (u := u) Ledger.spares_rollback rfl
    (Ledger.standing_rollback hi.stand.whole hout.2) ?_ ?_ hdb hcallers
  · exact ⟨fun _ _ => ⟨hwork, hsaves⟩, fun h => absurd (hout.1.symm.trans h) (by simp)⟩
  · rcases hidle with hidle | ⟨-, -, hcall | ⟨ho, hwon⟩⟩
    · exact .of_ordinary (hidle ▸ BatchCall.ordinary_idle)
    · exact .of_ordinary hcall
    · exact fun b i stage _ => ⟨ho, hsaves, fun _ _ => hwork, fun hw => by simp [hwon] at hw⟩

/-- Somebody outside commits, under no lock of a session's. -/
theorem Inv.put (hi : s.Inv)
    (hc : ∀ k, s.db.holder k ≠ none → c.part k = s.db.committed.part k)
    (hwhole : ∀ k, (c.part k).Whole) (hdb : s'.db = s.db.put c)
    (hcallers : s'.callers = s.callers) : s'.Inv := by
  refine ⟨?_, fun y => ?_, fun y => ?_⟩
  · rw [hdb, hcallers]
    exact hi.stand.put projects hc hwhole
  · rw [hdb, hcallers]
    exact hi.block y
  · rw [hdb, hcallers]
    refine (hi.complete y).moved (x := y + 1) Ledger.spares_put (by omega) fun k hk => hc k ?_
    rw [hk]
    exact Option.some_ne_none y

end Step

section Caller

variable {s s' : BatchState} {x b : ℕ} {u : BatchCaller} {a : BatchAction} {call : BatchCall}
  {work work' : List BatchWrite} {saves saves' : List (Savepoint BatchWrite ℕ)}

theorem blockOk_opened (hidle : u.call = .idle) (ho : u.opened = true) : BlockOk u work saves :=
  ⟨fun _ h => absurd (ho.symm.trans h) (by simp),
    fun h => by simp [hidle, BatchCall.inside] at h⟩

/-- The call goes from one statement to the next. -/
theorem BlockOk.next (h : BlockOk u work saves) (hin : u.call.inside = true)
    (hin' : call.inside = true) (hinner : call.inner = u.call.inner) (work' : List BatchWrite) :
    BlockOk { u with call := call } work' saves := by
  refine ⟨fun hout => absurd (hin'.symm.trans hout) (by simp), fun _ => ?_⟩
  change call.inner + _ ≤ _
  rw [hinner]
  exact h.inside hin

theorem Inv.stands (hi : s.Inv) (x : ℕ) : Stands s.db x (s.callers x).call := hi.stand.each x

/-- What a session outside a call sees. -/
theorem Inv.idle (hi : s.Inv) (hc : (s.callers x).call = .idle) :
    ∀ k, ((s.view x).part k).Whole := by
  have hview := (hi.stands x).view
  rw [hc] at hview
  exact (Ledger.meets_of_none rfl).mp (hview rfl)

/-- The caller goes on, outside a call. -/
theorem Inv.outside (hi : s.Inv) (hc : (s.callers x).call = .idle) (hu : u.call = .idle)
    (hblock : BlockOk u (s.db.work x) (s.db.saves x)) : (s.setCaller x u).Inv := by
  have hx := hi.stands x
  rw [hc] at hx
  exact hi.own .refl rfl (hu ▸ hx) hblock (.of_ordinary (hu ▸ BatchCall.ordinary_idle)) rfl rfl

/-- A call begins. -/
theorem Inv.begun (hi : s.Inv) (hc : (s.callers x).call = .idle) (howes : call.owes = none)
    (hinner : call.inner = 0) (hin : call.inside = false) (hcall : call.Ordinary) :
    (s.setCall x call).Inv := by
  have hx := hi.stands x
  rw [hc] at hx
  have hblock := (hi.block x).outside (by rw [hc]; rfl)
  refine hi.own (u := { s.callers x with call := call }) .refl rfl
    (hx.turned (fun _ => ?_) ?_ hinner hcall.touches) ?_ (.of_ordinary hcall) rfl rfl
  · exact (Ledger.meets_of_none howes).mpr (hi.idle hc)
  · change ∀ k ∈ call.owes, _
    simp [howes]
  · exact ⟨fun _ => hblock, fun h => absurd (hin.symm.trans h) (by simp)⟩

theorem stepCaller_inv (hi : s.Inv) (h : s.stepCaller a = some s') : s'.Inv := by
  cases a with
  | begin x =>
    obtain ⟨⟨⟨hc, -⟩, -⟩, h⟩ := Option.ite_none_right_eq_some.mp h
    obtain rfl := Option.some.inj h
    exact hi.outside hc hc (blockOk_opened hc rfl)
  | savepoint x =>
    obtain ⟨⟨hc, ho, -⟩, h⟩ := Option.ite_none_right_eq_some.mp h
    obtain rfl := Option.some.inj h
    have hx := hi.stands x
    have hcall : (s.callers x).call.Ordinary := hc ▸ BatchCall.ordinary_idle
    have hdepth : (s.callers x).call.promise.depth = 0 := by rw [hc]; rfl
    have hnext : Stands (s.db.save x) x (s.callers x).call :=
      hx.save hx.view hx.owed (.inr ⟨hdepth, hdepth, hi.idle hc⟩) rfl
    exact hi.own Ledger.spares_save rfl hnext (blockOk_opened hc ho) (.of_ordinary hcall) rfl
      (Function.update_eq_self x s.callers).symm
  | release x =>
    obtain ⟨⟨hc, ho, -⟩, h⟩ := Option.ite_none_right_eq_some.mp h
    obtain rfl := Option.some.inj h
    have hx := hi.stands x
    have hcall : (s.callers x).call.Ordinary := hc ▸ BatchCall.ordinary_idle
    have hdepth : (s.callers x).call.promise.depth = 0 := by rw [hc]; rfl
    have howes : (s.callers x).call.promise.owes = none := by rw [hc]; rfl
    have hnext : Stands (s.db.forget x) x (s.callers x).call :=
      hx.forget hx.view howes hdepth (by omega) rfl
    exact hi.own Ledger.spares_forget rfl hnext (blockOk_opened hc ho) (.of_ordinary hcall) rfl
      (Function.update_eq_self x s.callers).symm
  | undo x keep =>
    obtain ⟨⟨hc, ho, -⟩, h⟩ := Option.ite_none_right_eq_some.mp h
    obtain rfl := Option.some.inj h
    have hcall : (s.callers x).call.Ordinary := hc ▸ BatchCall.ordinary_idle
    have hdepth : (s.callers x).call.promise.depth = 0 := by rw [hc]; rfl
    have howes : (s.callers x).call.promise.owes = none := by rw [hc]; rfl
    cases hp : s.db.saves x with
    | nil =>
      have hsame : s.db.undo x keep = s.db := by simp [Ledger.undo, hp]
      rw [hsame]
      exact hi
    | cons p rest =>
      have hcommitted : (s.db.undo x keep).committed = s.db.committed := by simp [Ledger.undo, hp]
      have hnext : Stands (s.db.undo x keep) x (s.callers x).call :=
        (hi.stands x).undone hp howes hdepth (fun _ => hdepth) (by omega) rfl
      exact hi.own Ledger.spares_undo hcommitted hnext (blockOk_opened hc ho) (.of_ordinary hcall)
        rfl (Function.update_eq_self x s.callers).symm
  | commit x =>
    obtain ⟨⟨hc, -⟩, h⟩ := Option.ite_none_right_eq_some.mp h
    obtain rfl := Option.some.inj h
    exact hi.commit (u := { s.callers x with opened := false }) (hi.idle hc) hc rfl rfl
  | rollback x =>
    obtain ⟨⟨hc, -⟩, h⟩ := Option.ite_none_right_eq_some.mp h
    obtain rfl := Option.some.inj h
    exact hi.rolledBack (u := { s.callers x with opened := false, lost := false })
      (.inl hc) rfl rfl
  | create x b onComplete onSuccess =>
    obtain ⟨⟨⟨hc, -⟩, hfree, hnone⟩, h⟩ := Option.ite_none_right_eq_some.mp h
    have hx := hi.stands x
    have hcall : (s.callers x).call.Ordinary := hc ▸ BatchCall.ordinary_idle
    have howes : (s.callers x).call.promise.owes = none := by rw [hc]; rfl
    have hseen : ((s.view x).part b).row = none := by
      have hsame : (s.view x).part b = s.db.committed.part b :=
        projects.view_of_not_held hx.guarded (by rw [hfree]; simp)
      rw [hsame]
      exact hnone
    split_ifs at h with ho
    · obtain rfl := Option.some.inj h
      have hspares := (Ledger.spares_lock (s := s.db) (x := x) (k := b) (.inl hfree)).trans
        (Ledger.spares_write (o := BatchWrite.batch b ⟨.opened, none, onComplete, onSuccess, none,
          none, none⟩))
      refine hi.own hspares rfl (hx.lock.wrote ?_ ?_ (fun _ => ?_) ?_ rfl rfl)
        (blockOk_opened hc ho) (.of_ordinary hcall) rfl (Function.update_eq_self x s.callers).symm
      · intro k hk
        obtain rfl := Option.some.inj hk
        exact Function.update_self ..
      · intro k hk
        obtain rfl := Option.some.inj hk
        change (s.callers x).call.touches _ _
        rw [hcall.touches]
        refine ⟨by simp [BatchWrite.Plain], fun f hf => ?_⟩
        change s.db.committed.batches b = some f at hf
        rw [hnone] at hf
        cases hf
      · apply (Ledger.meets_of_none howes).mpr
        exact whole_batch (hi.idle hc) (BatchPart.whole_new (hi.idle hc b) hseen rfl rfl)
      · rw [howes]
        exact fun k hk => by cases hk
    · obtain rfl := Option.some.inj h
      refine hi.put (fun k hk => ?_) ?_ rfl rfl
      · exact projects.skip _ _ k fun he => hk (Option.some.inj he ▸ hfree)
      · exact whole_batch hi.stand.whole (BatchPart.whole_new (hi.stand.whole b) hnone rfl rfl)
  | add x b =>
    obtain ⟨⟨hc, -⟩, h⟩ := Option.ite_none_right_eq_some.mp h
    obtain rfl := Option.some.inj h
    exact hi.begun hc rfl rfl rfl (BatchCall.ordinary_adding b 0 .called)
  | sealOnce x b =>
    obtain ⟨⟨hc, -⟩, h⟩ := Option.ite_none_right_eq_some.mp h
    obtain rfl := Option.some.inj h
    exact hi.begun hc rfl rfl rfl (BatchCall.ordinary_sealing b .called)
  | complete x b =>
    obtain ⟨⟨⟨hc, -⟩, ho⟩, h⟩ := Option.ite_none_right_eq_some.mp h
    obtain rfl := Option.some.inj h
    obtain ⟨hwork, hsaves⟩ := (hi.block x).outside (by rw [hc]; rfl) ho
    refine hi.own (u := { s.callers x with call := .completing b 0 .called }) .refl rfl
      (Ledger.standing_nil (hi.stands x).guarded hwork hsaves hi.stand.whole rfl) ?_ ?_ rfl rfl
    · exact ⟨fun _ _ => ⟨hwork, hsaves⟩, fun h => by cases h⟩
    · intro b i stage hcall
      cases hcall
      exact ⟨ho, hsaves, fun _ _ => hwork, fun hw => by cases hw⟩
  | _ => cases h

end Caller

end BatchState

end DjangoOx
