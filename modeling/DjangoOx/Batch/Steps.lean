import DjangoOx.Batch.Counts

/-! Each statement of an `add`, a `seal` and a completion keeps what a run keeps. -/
namespace DjangoOx

open Machine

namespace BatchState

open BatchTables

section Call

variable {s s' : BatchState} {x b : ℕ} {a : BatchAction} {call : BatchCall} {f : OxpullBatch}
  {o : BatchWrite} {db : Ledger BatchTables BatchWrite ℕ ℕ}

theorem Inv.standsAt (hi : s.Inv) (hc : (s.callers x).call = call) : Stands s.db x call :=
  hc ▸ hi.stands x

/-- A row that a caller sees open is open, or not there, in what is committed. -/
theorem untaken_of_view (hx : Stands db x call) (hcall : call.Ordinary)
    (hf : (db.view write x).batches b = some f) (ho : f.status = .opened) :
    (db.committed.part b).Untaken := by
  rcases hx.touches_or_same projects b with ⟨o, -, -, htouch⟩ | hsame
  · have htouches : call.promise.touches = fun o a => o.Plain ∧ a.Untaken := hcall.touches
    rw [htouches] at htouch
    exact htouch.2
  · intro g hg
    have hrow : (db.view write x).batches b = some g := (congrArg BatchPart.row hsame).trans hg
    rw [hf] at hrow
    obtain rfl := Option.some.inj hrow
    exact ho

/-- The batch that a caller has something to write to yet. -/
theorem Inv.owed (hi : s.Inv) (hc : (s.callers x).call = call) (hcall : call.Ordinary)
    (ho : call.owes = some b) :
    s.db.holder b = some x ∧ (s.db.committed.part b).Untaken := by
  obtain ⟨hheld, o, htouch⟩ := (hi.standsAt hc).owed b ho
  have htouches : call.promise.touches = fun o a => o.Plain ∧ a.Untaken := hcall.touches
  rw [htouches] at htouch
  exact ⟨hheld, htouch.2⟩

/-- The call goes on with nothing written. -/
theorem Inv.turned (hi : s.Inv) (hc : (s.callers x).call = call) (call' : BatchCall)
    (hview : call'.failing = false → Ledger.Meets part BatchPart.Whole call'.promise (s.view x))
    (howes : call'.owes = none ∨ call'.owes = call.owes) (hinner : call'.inner = call.inner)
    (hin : call.inside = true) (hin' : call'.inside = true) (hcall : call.Ordinary)
    (hcall' : call'.Ordinary) : (s.setCall x call').Inv := by
  have hx := hi.standsAt hc
  have hblock : BlockOk { s.callers x with call := call' } (s.db.work x) (s.db.saves x) :=
    (hi.block x).next (by rw [hc]; exact hin) hin' (by rw [hc]; exact hinner) _
  refine hi.own (u := { s.callers x with call := call' }) .refl rfl
    (hx.turned hview ?_ hinner (hcall'.touches.trans hcall.touches.symm)) hblock
    (.of_ordinary hcall') rfl rfl
  intro k hk
  rcases howes with hnone | hsame
  · have hk' : call'.owes = some k := hk
    rw [hnone] at hk'
    cases hk'
  · have hk' : call'.owes = some k := hk
    exact hx.owed k (hsame.symm.trans hk')

/-- The call goes on with one row written. -/
theorem Inv.wrote (hi : s.Inv) (hc : (s.callers x).call = call) (call' : BatchCall)
    (hkey : ∀ k ∈ o.key, s.db.holder k = some x ∧ (s.db.committed.part k).Untaken)
    (hview : Ledger.Meets part BatchPart.Whole call'.promise ((s.view x).write o))
    (howes : ∀ k ∈ call'.owes, s.db.holder k = some x ∧ (s.db.committed.part k).Untaken)
    (hplain : o.Plain) (hinner : call'.inner = call.inner) (hin : call.inside = true)
    (hin' : call'.inside = true) (hcall : call.Ordinary) (hcall' : call'.Ordinary)
    (hdb : s'.db = s.db.write x o)
    (hcallers : s'.callers = Function.update s.callers x { s.callers x with call := call' }) :
    s'.Inv := by
  have hx := hi.standsAt hc
  have htouches : call.promise.touches = fun o a => o.Plain ∧ a.Untaken := hcall.touches
  have hblock : BlockOk { s.callers x with call := call' } (s.db.work x ++ [o]) (s.db.saves x) :=
    (hi.block x).next (by rw [hc]; exact hin) hin' (by rw [hc]; exact hinner) _
  have hwork : (s.db.write x o).work x = s.db.work x ++ [o] := Function.update_self ..
  refine hi.own (u := { s.callers x with call := call' }) Ledger.spares_write rfl
    (hx.wrote (fun k hk => (hkey k hk).1) ?_ (fun _ => hview) ?_ hinner
      (hcall'.touches.trans hcall.touches.symm)) ?_ (.of_ordinary hcall') hdb hcallers
  · rw [htouches]
    exact fun k hk => ⟨hplain, (hkey k hk).2⟩
  · rw [htouches]
    exact fun k hk => ⟨(howes k hk).1, o, hplain, (howes k hk).2⟩
  · rw [hwork]
    exact hblock

/-- A lock is taken. -/
theorem Inv.locked (hi : s.Inv) (hfree : s.db.Free x b) : (s.setDb (s.db.lock x b)).Inv := by
  refine hi.own (Ledger.spares_lock hfree) rfl (hi.stands x).lock (hi.block x) ?_ rfl
    (Function.update_eq_self x s.callers).symm
  intro c i stage hc
  obtain ⟨ho, hsaves, hnone, hwon⟩ := hi.complete x c i stage hc
  refine ⟨ho, hsaves, hnone, fun hw => ?_⟩
  obtain ⟨f, g, sent, last, hwin⟩ := hwon hw
  exact ⟨f, g, sent, last, Ledger.holder_lock hwin.held b, hwin.row, hwin.sealed, hwin.work,
    hwin.own, hwin.last, hwin.sent⟩

/-- What a call that owes nothing sees. -/
theorem Inv.seen (hi : s.Inv) (hc : (s.callers x).call = call) (hsteady : call.failing = false)
    (howes : call.owes = none) : ∀ k, ((s.view x).part k).Whole :=
  (Ledger.meets_of_none (p := call.promise) howes).mp ((hi.standsAt hc).view hsteady)

theorem stepCall_inv (hi : s.Inv) (h : s.stepCall a = some s') : s'.Inv := by
  cases a with
  | enqueue x task call inherited now =>
    simp only [stepCall] at h
    split at h
    · next b i hc =>
      obtain ⟨-, h⟩ := Option.ite_none_right_eq_some.mp h
      obtain rfl := Option.some.inj h
      refine hi.wrote hc (.adding b i (.enqueued task)) (fun k hk => by cases hk) ?_
        (fun k hk => by cases hk) (by trivial) rfl rfl rfl (BatchCall.ordinary_adding b i _)
        (BatchCall.ordinary_adding b i _) rfl rfl
      apply (Ledger.meets_of_none rfl).mpr
      exact fun k => hi.seen hc rfl rfl k
    · cases h
  | enqueueKept x task =>
    simp only [stepCall] at h
    split at h
    · next b i hc =>
      split at h
      · obtain ⟨-, h⟩ := Option.ite_none_right_eq_some.mp h
        obtain rfl := Option.some.inj h
        exact hi.turned hc (.adding b i (.enqueued task))
          (fun _ => (Ledger.meets_of_none rfl).mpr (hi.seen hc rfl rfl)) (.inl rfl) rfl rfl rfl
          (BatchCall.ordinary_adding b i _) (BatchCall.ordinary_adding b i _)
      · cases h
    · cases h
  | claimOpen x =>
    simp only [stepCall] at h
    split at h
    · next b i task hc =>
      have hadd := BatchCall.ordinary_adding b i
      split at h
      · next f hf =>
        obtain ⟨hfree, h⟩ := Option.ite_none_right_eq_some.mp h
        have hlocked := hi.locked hfree
        have hholder : (s.db.lock x b).holder b = some x := Function.update_self ..
        have hwhole := hi.seen hc rfl rfl
        split_ifs at h with ho
        · obtain rfl := Option.some.inj h
          have huntaken := untaken_of_view (hi.standsAt hc) (hadd _) hf ho
          have hkey : ∀ k ∈ (BatchWrite.batch b f).key, (s.db.lock x b).holder k = some x ∧
              (s.db.committed.part k).Untaken := by
            intro k hk
            obtain rfl := Option.some.inj hk
            exact ⟨hholder, huntaken⟩
          have hsame : (((s.view x).write (.batch b f)).part b) =
              ⟨some f, ((s.view x).part b).members, ((s.view x).part b).callbacks⟩ := part_batch
          have hnext := whole_batch hwhole ((hwhole b).same hf)
          refine hlocked.wrote hc (.adding b i (.claimed task)) hkey ?_ hkey
            (by simp [BatchWrite.Plain, ho]) rfl rfl rfl (hadd _) (hadd _) rfl rfl
          refine Ledger.meets_of_some rfl ⟨hnext b, f, ?_, ho⟩ fun k _ => hnext k
          exact congrArg BatchPart.row hsame
        · obtain rfl := Option.some.inj h
          exact hlocked.turned hc (.adding b i .failing) (fun h => by cases h) (.inl rfl) rfl rfl rfl
            (hadd _) (hadd _)
      · obtain rfl := Option.some.inj h
        exact hi.turned hc (.adding b i .failing) (fun h => by cases h) (.inl rfl) rfl rfl rfl
          (hadd _) (hadd _)
    · cases h
  | enterInsert x =>
    simp only [stepCall] at h
    split at h
    · next b i task hc =>
      obtain rfl := Option.some.inj h
      have hx := hi.standsAt hc
      have hadd := BatchCall.ordinary_adding b i (.inserting task)
      have hsaves : (s.db.save x).saves x = s.db.point x :: s.db.saves x := Function.update_self ..
      refine hi.own (u := { s.callers x with call := .adding b i (.inserting task) })
        Ledger.spares_save rfl (hx.save hx.view hx.owed (.inl rfl) rfl) ?_ (.of_ordinary hadd)
        rfl rfl
      have hinside := (hi.block x).inside (by rw [hc]; rfl)
      rw [hc] at hinside
      refine ⟨fun h => (by cases h), fun _ => ?_⟩
      rw [hsaves, List.length_cons]
      change 1 + (s.callers x).opened.toNat ≤ _
      change 0 + (s.callers x).opened.toNat ≤ _ at hinside
      omega
    · cases h
  | insertMember x =>
    simp only [stepCall] at h
    split at h
    · next b i task hc =>
      obtain ⟨hnew, h⟩ := Option.ite_none_right_eq_some.mp h
      obtain rfl := Option.some.inj h
      have hx := hi.standsAt hc
      have hadd := BatchCall.ordinary_adding b i
      have hmeets : Ledger.Meets part BatchPart.Whole
          (BatchCall.adding b i (.inserting task)).promise (s.view x) := hx.view rfl
      obtain ⟨hwhole, hopened⟩ := hmeets.owed (k := b) rfl
      have hothers : ∀ k, k ≠ b → ((s.view x).part k).Whole := fun k hk =>
        hmeets.whole fun he => hk (Option.some.inj he).symm
      have hkey : ∀ k ∈ (BatchWrite.member ⟨b, task⟩).key, k = b := fun k hk =>
        (Option.some.inj hk).symm
      refine hi.wrote hc (.adding b i (.inserted task)) (fun k hk => ?_) ?_
        (fun k hk => by cases hk) (by trivial) rfl rfl rfl (hadd _) (hadd _) rfl rfl
      · rw [hkey k hk]
        exact hi.owed hc (hadd _) rfl
      · apply (Ledger.meets_of_none rfl).mpr
        apply whole_write hkey hothers
        rw [part_member ⟨b, task⟩]
        exact hwhole.member hopened hnew
    · cases h
  | leaveInsert x =>
    simp only [stepCall] at h
    split at h
    · next b i task hc =>
      obtain rfl := Option.some.inj h
      have hx := hi.standsAt hc
      have hadd := BatchCall.ordinary_adding b i (.added task)
      have hsaves : (s.db.forget x).saves x = (s.db.saves x).tail := Function.update_self ..
      refine hi.own (u := { s.callers x with call := .adding b i (.added task) })
        Ledger.spares_forget rfl (hx.forget hx.view rfl rfl ?_ rfl) ?_ (.of_ordinary hadd) rfl rfl
      · exact BatchCall.inner_le (.adding b i (.inserted task))
      · have hinside := (hi.block x).inside (by rw [hc]; rfl)
        rw [hc] at hinside
        refine ⟨fun h => (by cases h), fun _ => ?_⟩
        rw [hsaves, List.length_tail]
        change 0 + (s.callers x).opened.toNat ≤ _
        change 1 + (s.callers x).opened.toNat ≤ _ at hinside
        omega
    · cases h
  | flip x =>
    simp only [stepCall] at h
    split at h
    · next b hc =>
      have hseal := BatchCall.ordinary_sealing b
      split at h
      · next f hf =>
        have hwhole := hi.seen hc rfl rfl
        split_ifs at h with ho hfree
        · obtain rfl := Option.some.inj h
          have hlocked := hi.locked hfree
          have hholder : (s.db.lock x b).holder b = some x := Function.update_self ..
          have huntaken := untaken_of_view (hi.standsAt hc) (hseal _) hf ho
          have hkey : ∀ k ∈ (BatchWrite.batch b { f with status := .sealed }).key,
              (s.db.lock x b).holder k = some x ∧ (s.db.committed.part k).Untaken := by
            intro k hk
            obtain rfl := Option.some.inj hk
            exact ⟨hholder, huntaken⟩
          refine hlocked.wrote hc (.sealing b .flipped) hkey ?_ hkey (by simp [BatchWrite.Plain])
            rfl rfl rfl (hseal _) (hseal _) rfl rfl
          refine Ledger.meets_of_some rfl ?_ fun k hk => ?_
          · change (((s.view x).write (.batch b _)).part b).Unsealed
            rw [part_batch]
            exact (hwhole b).flipped hf ho
          · change (((s.view x).write (.batch b _)).part k).Whole
            rw [projects.skip _ (.batch b _) k fun he => hk (Option.some.inj he).symm]
            exact hwhole k
        · obtain rfl := Option.some.inj h
          exact hi.turned hc (.sealing b .failing) (fun h => by cases h) (.inl rfl) rfl rfl rfl
            (hseal _) (hseal _)
      · obtain rfl := Option.some.inj h
        exact hi.turned hc (.sealing b .failing) (fun h => by cases h) (.inl rfl) rfl rfl rfl
          (hseal _) (hseal _)
    · cases h
  | requireSchedule x =>
    simp only [stepCall] at h
    split at h
    · next b hc =>
      obtain rfl := Option.some.inj h
      exact hi.turned hc (.sealing b .checked) (hi.standsAt hc).view (.inr rfl) rfl rfl rfl
        (BatchCall.ordinary_sealing b _) (BatchCall.ordinary_sealing b _)
    · cases h
  | countMembers x =>
    simp only [stepCall] at h
    split at h
    · next b hc =>
      obtain rfl := Option.some.inj h
      have hmeets : Ledger.Meets part BatchPart.Whole
          (BatchCall.sealing b .checked).promise (s.view x) := (hi.standsAt hc).view rfl
      refine hi.turned hc (.sealing b (.counted _)) (fun _ => ?_) (.inr rfl) rfl rfl rfl
        (BatchCall.ordinary_sealing b _) (BatchCall.ordinary_sealing b _)
      refine Ledger.meets_of_some rfl ⟨hmeets.owed (k := b) rfl, rfl⟩ fun k hk => ?_
      exact hmeets.whole fun he => hk (Option.some.inj he).symm
    · cases h
  | storeTotal x =>
    simp only [stepCall] at h
    split at h
    · next b n hc =>
      split at h
      · next f hf =>
        obtain rfl := Option.some.inj h
        have hx := hi.standsAt hc
        have hseal := BatchCall.ordinary_sealing b
        have hmeets : Ledger.Meets part BatchPart.Whole
            (BatchCall.sealing b (.counted n)).promise (s.view x) := hx.view rfl
        obtain ⟨hunsealed, hn⟩ := hmeets.owed (k := b) rfl
        have hothers : ∀ k, k ≠ b → ((s.view x).part k).Whole := fun k hk =>
          hmeets.whole fun he => hk (Option.some.inj he).symm
        have hkey : ∀ k ∈ (BatchWrite.batch b { f with totalCount := some n }).key, k = b :=
          fun k hk => (Option.some.inj hk).symm
        have hstatus : f.status = .sealed := by
          obtain ⟨⟨g, hg, hst⟩, -⟩ := hunsealed
          obtain rfl := Option.some.inj (hf.symm.trans hg)
          exact hst
        refine hi.wrote hc (.sealing b .done) (fun k hk => ?_) ?_ (fun k hk => by cases hk)
          (by simp [BatchWrite.Plain, hstatus]) rfl rfl rfl (hseal _) (hseal _) rfl rfl
        · rw [hkey k hk]
          exact hi.owed hc (hseal _) rfl
        · apply (Ledger.meets_of_none rfl).mpr
          apply whole_write hkey hothers
          rw [part_batch]
          exact hunsealed.whole hf hn
      · cases h
    · cases h
  | _ => cases h

end Call

section Complete

variable {s s' : BatchState} {x b i : ℕ} {a : BatchAction} {stage stage' : CompleteStage}
  {f g : OxpullBatch} {c : BatchTables} {roles : List CallbackRole}
  {db : Ledger BatchTables BatchWrite ℕ ℕ} {sent : List (Callback × RowState)}
  {last : List BatchWrite}

theorem part_callbacks (h : ∀ k ∈ sent, k.1.batch = b) :
    ((sent.map fun k => BatchWrite.callback k.1 k.2).foldl write c).part b =
      ⟨c.batches b, (c.part b).members, (c.part b).callbacks ++ sent.map (·.1)⟩ := by
  induction sent generalizing c with
  | nil => simp [part]
  | cons k sent ih =>
    have hk : k.1.batch = b := h k List.mem_cons_self
    have hpart := part_callback (c := c) k.1 k.2
    rw [hk] at hpart
    rw [List.map_cons, List.foldl_cons, ih fun j hj => h j (List.mem_cons_of_mem _ hj), hpart]
    have hrow : (c.write (.callback k.1 k.2)).batches b = c.batches b := rfl
    simp [hrow]

theorem completeRoles_sublist (f : OxpullBatch) : f.completeRoles.Sublist [.onComplete] := by
  unfold OxpullBatch.completeRoles
  split_ifs
  · exact List.nil_sublist _
  · exact List.Sublist.refl _

theorem successRoles_sublist (f : OxpullBatch) (failed unattributed : ℕ) :
    (f.successRoles failed unattributed).Sublist [.onSuccess] := by
  unfold OxpullBatch.successRoles
  split_ifs
  · exact List.Sublist.refl _
  · exact List.nil_sublist _

theorem sublist_of_sent (h : stage.Sent f roles) : roles.Sublist [.onComplete, .onSuccess] := by
  have hboth : ∀ m n, (f.completeRoles ++ f.successRoles m n).Sublist
      [.onComplete, .onSuccess] := fun m n =>
    (completeRoles_sublist f).append (successRoles_sublist f m n)
  cases stage with
  | totalless failed counted row => exact h.1 ▸ List.nil_sublist _
  | totalled failed unattributed row columns => exact h.1 ▸ List.nil_sublist _
  | completeSent failed unattributed row columns =>
    exact h.1 ▸ (completeRoles_sublist f).trans (by simp)
  | successSent failed unattributed columns => exact h.1 ▸ hboth failed unattributed
  | stored failed unattributed => exact (show roles = _ from h) ▸ hboth failed unattributed
  | _ => exact (show roles = [] from h) ▸ List.nil_sublist _

namespace Winning

/-- What the transaction sees of its batch. -/
theorem part (h : Winning db x b stage f g sent last) (hwhole : (db.committed.part b).Whole) :
    (db.view write x).part b = ⟨some g, (db.committed.part b).members, sent.map (·.1)⟩ := by
  have hnil : (db.committed.part b).callbacks = [] :=
    hwhole.callbacks_eq_nil h.row (by simp [h.sealed])
  have hwon := part_batch (c := db.committed) (b := b) (f := { f with status := .complete })
  have hsent := part_callbacks (c := db.committed.write (.batch b { f with status := .complete }))
    h.own
  have hrow : (db.committed.write (.batch b { f with status := .complete })).batches b =
      some { f with status := .complete } := congrArg BatchPart.row hwon
  unfold Ledger.view
  rw [h.work, List.foldl_cons, List.foldl_append]
  rcases h.last with ⟨hlast, hg⟩ | ⟨-, hlast, -⟩
  · rw [hlast, List.foldl_nil, hsent, hrow, hwon, hnil, List.nil_append, hg]
  · rw [hlast, List.foldl_cons, List.foldl_nil, part_batch, hsent, hwon, hnil, List.nil_append]

theorem completed (h : Winning db x b stage f g sent last) :
    g.status = .complete ∧ g.totalCount = f.totalCount := by
  rcases h.last with ⟨-, hg⟩ | ⟨-, -, hg⟩
  · rw [hg]
    exact ⟨rfl, rfl⟩
  · exact hg

theorem shown (h : Winning db x b stage f g sent []) : g = { f with status := .complete } := by
  rcases h.last with ⟨-, hg⟩ | ⟨-, hlast, -⟩
  · exact hg
  · cases hlast

/-- It writes to no other batch. -/
theorem part_of_ne (h : Winning db x b stage f g sent last) {k : ℕ} (hk : k ≠ b) :
    (db.view write x).part k = db.committed.part k := by
  apply projects.foldl_skip
  intro o ho hkey
  rw [h.work] at ho
  rcases List.mem_cons.mp ho with rfl | ho
  · exact hk (Option.some.inj hkey).symm
  · rcases List.mem_append.mp ho with ho | ho
    · obtain ⟨c, hc, rfl⟩ := List.mem_map.mp ho
      exact hk ((Option.some.inj hkey).symm.trans (h.own c hc))
    · rcases h.last with ⟨hlast, -⟩ | ⟨-, hlast, -⟩
      · rw [hlast] at ho
        cases ho
      · rw [hlast, List.mem_singleton] at ho
        subst ho
        exact hk (Option.some.inj hkey).symm

theorem whole (h : Winning db x b stage f g sent last)
    (hwhole : ∀ k, (db.committed.part k).Whole) (k : ℕ) : ((db.view write x).part k).Whole := by
  by_cases hk : k = b
  · subst hk
    have hroles : ((sent.map (·.1)).map (·.role)).Nodup := by
      rw [List.map_map]
      exact (sublist_of_sent h.sent).nodup (by simp)
    rw [h.part (hwhole k)]
    exact (hwhole k).completed h.row h.sealed h.completed.1 h.completed.2 hroles
  · rw [h.part_of_ne hk]
    exact hwhole k

theorem next (h : Winning db x b stage f g sent [])
    (hsent : stage'.Sent f (sent.map (·.1.role))) : Winning db x b stage' f g sent [] :=
  ⟨h.held, h.row, h.sealed, h.work, h.own, .inl ⟨rfl, h.shown⟩, hsent⟩

/-- A callback is enqueued. -/
theorem send (h : Winning db x b stage f g sent []) (stage' : CompleteStage) (k : Callback)
    (r : RowState) (hk : k.batch = b) (hsent : stage'.Sent f ((sent ++ [(k, r)]).map (·.1.role))) :
    Winning (db.write x (.callback k r)) x b stage' f g (sent ++ [(k, r)]) [] where
  held := h.held
  row := h.row
  sealed := h.sealed
  work := by
    have hwork : (db.write x (.callback k r)).work x = db.work x ++ [.callback k r] :=
      Function.update_self ..
    rw [hwork, h.work]
    simp
  own c hc := by
    rcases List.mem_append.mp hc with hc | hc
    · exact h.own c hc
    · rw [List.mem_singleton.mp hc]
      exact hk
  last := .inl ⟨rfl, h.shown⟩
  sent := hsent

/-- The columns are written last. -/
theorem store {failed unattributed : ℕ} (h : Winning db x b stage f g sent [])
    (row : OxpullBatch) (hrow : row.status = .complete)
    (htotal : row.totalCount = f.totalCount)
    (hsent : CompleteStage.Sent f (sent.map (·.1.role)) (.stored failed unattributed)) :
    Winning (db.write x (.batch b row)) x b (.stored failed unattributed) f row sent
      [.batch b row] where
  held := h.held
  row := h.row
  sealed := h.sealed
  work := by
    have hwork : (db.write x (.batch b row)).work x = db.work x ++ [.batch b row] :=
      Function.update_self ..
    rw [hwork, h.work]
    simp
  own := h.own
  last := .inr ⟨⟨_, _, rfl⟩, rfl, hrow, htotal⟩
  sent := hsent

end Winning

/-- What a completion that goes on keeps. -/
theorem Inv.advanced (hi : s.Inv) (hc : (s.callers x).call = .completing b i stage)
    (hin : (s.callers x).call.inside = true) (hs : Ledger.Spares x s.db db)
    (hcommitted : db.committed = s.db.committed) (hsaves : db.saves x = s.db.saves x)
    (hguarded : db.Guarded BatchWrite.key x) (hwin : Winning db x b stage' f g sent last)
    (hwon : (BatchCall.completing b i stage').won = some b) (hdb : s'.db = db)
    (hcallers : s'.callers = Function.update s.callers x
      { s.callers x with call := .completing b i stage' }) : s'.Inv := by
  have hwhole : ∀ k, (db.committed.part k).Whole := by
    rw [hcommitted]
    exact hi.stand.whole
  obtain ⟨ho, hnil, -⟩ := hi.complete x b i stage hc
  have hin' : (BatchCall.completing b i stage').inside = true := by
    cases stage' with
    | called => cases hwon
    | filtered => cases hwon
    | _ => rfl
  refine hi.own (u := { s.callers x with call := .completing b i stage' }) hs hcommitted ?_ ?_ ?_
    hdb hcallers
  · refine ⟨hguarded, fun _ => (Ledger.meets_of_none rfl).mpr (hwin.whole hwhole),
      fun k hk => (by cases hk), ?_, fun _ _ _ _ => trivial, fun _ _ _ _ _ _ => trivial⟩
    rw [hsaves, hnil, List.drop_nil]
    exact fun q hq => by cases hq
  · rw [hsaves]
    exact (hi.block x).next hin hin' (by rw [hc]; rfl) _
  · intro b' i' st hcall
    cases hcall
    exact ⟨ho, hsaves.trans hnil, fun _ hn => by simp [hwon] at hn, fun _ => ⟨f, g, sent, last, hwin⟩⟩

/-- The same with nothing written. -/
theorem Inv.turnedStage (hi : s.Inv) (hc : (s.callers x).call = .completing b i stage)
    (hin : (s.callers x).call.inside = true) (hwin : Winning s.db x b stage f g sent [])
    (hsent : stage'.Sent f (sent.map (·.1.role)))
    (hwon : (BatchCall.completing b i stage').won = some b) :
    (s.setCall x (.completing b i stage')).Inv :=
  hi.advanced hc hin .refl rfl rfl (hi.stands x).guarded (hwin.next hsent) hwon rfl rfl

/-- The same with one row written. -/
theorem Inv.wroteStage {o : BatchWrite} (hi : s.Inv)
    (hc : (s.callers x).call = .completing b i stage) (hin : (s.callers x).call.inside = true)
    (hkey : ∀ k ∈ o.key, s.db.holder k = some x)
    (hwin : Winning (s.db.write x o) x b stage' f g sent last)
    (hwon : (BatchCall.completing b i stage').won = some b) (hdb : s'.db = s.db.write x o)
    (hcallers : s'.callers = Function.update s.callers x
      { s.callers x with call := .completing b i stage' }) : s'.Inv :=
  hi.advanced hc hin Ledger.spares_write rfl rfl ((hi.stands x).guarded.write hkey) hwin hwon hdb
    hcallers

/-- A completion whose transaction is empty goes on, or ends. -/
theorem Inv.emptied (hi : s.Inv) (hc : (s.callers x).call = .completing b i stage)
    (hwork : s.db.work x = []) (call : BatchCall) (howes : call.owes = none)
    (hinner : call.inner = 0) (hwon : call.won = none) : (s.setCall x call).Inv := by
  obtain ⟨ho, hsaves, -⟩ := hi.complete x b i stage hc
  refine hi.own (u := { s.callers x with call := call }) .refl rfl
    (Ledger.standing_nil (hi.stands x).guarded hwork hsaves hi.stand.whole howes) ?_ ?_ rfl rfl
  · refine ⟨fun _ _ => ⟨hwork, hsaves⟩, fun _ => ?_⟩
    change call.inner + (s.callers x).opened.toNat ≤ _
    rw [hinner, ho]
    exact Nat.zero_le _
  · intro b' i' st _
    exact ⟨ho, hsaves, fun _ _ => hwork, fun hw => by simp [hwon] at hw⟩

/-- An exception leaves the statements of a completion. -/
theorem Inv.failing (hi : s.Inv) (hc : (s.callers x).call = .completing b i stage)
    (hin : (s.callers x).call.inside = true) (hdb : s'.db = s.db)
    (hcallers : s'.callers = Function.update s.callers x
      { s.callers x with call := .completing b i .failing }) : s'.Inv := by
  obtain ⟨ho, hsaves, -⟩ := hi.complete x b i stage hc
  refine hi.own (u := { s.callers x with call := .completing b i .failing }) .refl rfl
    ((hi.standsAt hc).turned (fun h => by cases h) (fun k hk => by cases hk) rfl rfl)
    ((hi.block x).next hin rfl (by rw [hc]; rfl) _) ?_ hdb hcallers
  exact fun b' i' st _ => ⟨ho, hsaves, fun hf => (by cases hf), fun hw => (by cases hw)⟩

/-- A completion that has won its batch. -/
theorem Inv.winning (hi : s.Inv) (hc : (s.callers x).call = .completing b i stage)
    (hwon : (BatchCall.completing b i stage).won = some b) :
    ∃ f g sent last, Winning s.db x b stage f g sent last := by
  obtain ⟨-, -, -, hwin⟩ := hi.complete x b i stage hc
  exact hwin (by rw [hc]; exact hwon)

/-- One that has not stored the columns. -/
theorem Inv.winningYet (hi : s.Inv) (hc : (s.callers x).call = .completing b i stage)
    (hwon : (BatchCall.completing b i stage).won = some b)
    (hstage : ∀ failed unattributed, stage ≠ .stored failed unattributed) :
    ∃ f g sent, Winning s.db x b stage f g sent [] := by
  obtain ⟨f, g, sent, last, hwin⟩ := hi.winning hc hwon
  rcases hwin.last with ⟨rfl, -⟩ | ⟨⟨failed, unattributed, he⟩, -⟩
  · exact ⟨f, g, sent, hwin⟩
  · exact absurd he (hstage failed unattributed)

end Complete

section Steps

variable {s s' : BatchState} {x b i : ℕ} {a : BatchAction} {call : BatchCall}
  {stage : CompleteStage}

theorem stepComplete_inv (hi : s.Inv) (h : s.stepComplete a = some s') : s'.Inv := by
  cases a with
  | filter x =>
    simp only [stepComplete] at h
    split at h
    · next b i hc =>
      obtain ⟨-, -, hnone, -⟩ := hi.complete x b i .called hc
      have hwork : s.db.work x = [] := hnone (by rw [hc]; rfl) (by rw [hc]; rfl)
      split_ifs at h
      · obtain rfl := Option.some.inj h
        exact hi.emptied hc hwork (.completing b i .filtered) rfl rfl rfl
      · obtain rfl := Option.some.inj h
        exact hi.emptied hc hwork .idle rfl rfl rfl
    · cases h
  | win x =>
    simp only [stepComplete] at h
    split at h
    · next b i hc =>
      obtain ⟨-, -, hnone, -⟩ := hi.complete x b i .entered hc
      have hwork : s.db.work x = [] := hnone (by rw [hc]; rfl) (by rw [hc]; rfl)
      split at h
      · next f hf =>
        split_ifs at h with hst hfree
        · obtain rfl := Option.some.inj h
          have hrow : s.db.committed.batches b = some f := by
            have hview : s.view x = s.db.committed := by
              unfold view Ledger.view
              rw [hwork]
              rfl
            rw [← hview]
            exact hf
          have hspares := (Ledger.spares_lock (k := b) hfree).trans
            (Ledger.spares_write (o := BatchWrite.batch b { f with status := .complete }))
          have hholder : (s.db.lock x b).holder b = some x := Function.update_self ..
          have hkey : ∀ k ∈ (BatchWrite.batch b { f with status := .complete }).key,
              (s.db.lock x b).holder k = some x := by
            intro k hk
            obtain rfl := Option.some.inj hk
            exact hholder
          have hwrite : ((s.db.lock x b).write x (.batch b { f with status := .complete })).work x =
              [.batch b { f with status := .complete }] := by
            have hupdate : ((s.db.lock x b).write x
                (.batch b { f with status := .complete })).work x =
                s.db.work x ++ [.batch b { f with status := .complete }] := Function.update_self ..
            rw [hupdate, hwork]
            rfl
          have hwin : Winning ((s.db.lock x b).write x (.batch b { f with status := .complete })) x
              b .won f { f with status := .complete } [] [] :=
            ⟨hholder, hrow, hst, hwrite, fun k hk => (by cases hk), .inl ⟨rfl, rfl⟩, rfl⟩
          exact hi.advanced hc (by rw [hc]; rfl) hspares rfl rfl
            ((hi.stands x).guarded.lock.write hkey) hwin rfl rfl rfl
        · obtain rfl := Option.some.inj h
          exact hi.emptied hc hwork (.completing b i .beaten) rfl rfl rfl
      · obtain rfl := Option.some.inj h
        exact hi.emptied hc hwork (.completing b i .beaten) rfl rfl rfl
    · cases h
  | countTasks x =>
    simp only [stepComplete] at h
    split at h
    · next b i hc =>
      obtain ⟨f, g, sent, hwin⟩ := hi.winningYet hc rfl fun _ _ => by simp
      split_ifs at h
      · obtain rfl := Option.some.inj h
        exact hi.failing hc (by rw [hc]; rfl) rfl rfl
      · obtain rfl := Option.some.inj h
        exact hi.turnedStage hc (by rw [hc]; rfl) hwin hwin.sent rfl
    · cases h
  | readRow x =>
    simp only [stepComplete] at h
    split at h
    · next b i failed counted hc =>
      obtain ⟨f, g, sent, hwin⟩ := hi.winningYet hc rfl fun _ _ => by simp
      have hrow : (s.view x).batches b = some { f with status := .complete } := by
        rw [← hwin.shown]
        exact congrArg BatchPart.row (hwin.part (hi.stand.whole b))
      split at h
      · next row hrow' =>
        rw [hrow] at hrow'
        obtain rfl := Option.some.inj hrow'
        split at h
        · obtain rfl := Option.some.inj h
          exact hi.turnedStage hc (by rw [hc]; rfl) hwin ⟨hwin.sent, rfl, rfl⟩ rfl
        · obtain rfl := Option.some.inj h
          exact hi.turnedStage hc (by rw [hc]; rfl) hwin ⟨hwin.sent, rfl⟩ rfl
      · cases h
    · cases h
  | countLive x =>
    simp only [stepComplete] at h
    split at h
    · next b i failed counted row hc =>
      obtain rfl := Option.some.inj h
      obtain ⟨f, g, sent, hwin⟩ := hi.winningYet hc rfl fun _ _ => by simp
      obtain ⟨hroles, hrow⟩ := hwin.sent
      have htotal : f.totalCount = some ((s.view x).countMembers b) := by
        have hseen : (s.view x).countMembers b = (s.db.committed.part b).members.length :=
          congrArg (·.members.length) (hwin.part (hi.stand.whole b))
        rw [hseen]
        exact (hi.stand.whole b).total f hwin.row (by simp [hwin.sealed])
      exact hi.turnedStage hc (by rw [hc]; rfl) hwin ⟨hroles, hrow, htotal.symm⟩ rfl
    · cases h
  | sendComplete x task call inherited now =>
    simp only [stepComplete] at h
    split at h
    · next b i failed unattributed row columns hc =>
      obtain ⟨f, g, sent, hwin⟩ := hi.winningYet hc rfl fun _ _ => by simp
      obtain ⟨hnil, hrow, htotal⟩ := hwin.sent
      have hsent : sent = [] := List.map_eq_nil_iff.mp hnil
      have hpath : row.onCompletePath = f.onCompletePath := by rw [hrow]
      subst hsent
      split_ifs at h with hempty
      · obtain rfl := Option.some.inj h
        have hroles : f.completeRoles = [] := if_pos (hpath ▸ hempty)
        exact hi.turnedStage hc (by rw [hc]; rfl) hwin ⟨hroles.symm, hrow, htotal⟩ rfl
      · obtain rfl := Option.some.inj h
        have hroles : f.completeRoles = [.onComplete] := if_neg (hpath ▸ hempty)
        refine hi.wroteStage hc (by rw [hc]; rfl) ?_ (hwin.send
          (.completeSent failed unattributed row { columns with callbackTaskId := some task })
          ⟨b, .onComplete, task⟩ (.enqueued call inherited now) rfl ?_) rfl rfl rfl
        · intro k hk
          obtain rfl := Option.some.inj hk
          exact hwin.held
        · exact ⟨hroles.symm, hrow, htotal⟩
    · cases h
  | sendSuccess x task call inherited now =>
    simp only [stepComplete] at h
    split at h
    · next b i failed unattributed row columns hc =>
      obtain ⟨f, g, sent, hwin⟩ := hi.winningYet hc rfl fun _ _ => by simp
      obtain ⟨hroles, hrow, htotal⟩ := hwin.sent
      have hpath : row.onSuccessPath = f.onSuccessPath := by rw [hrow]
      split_ifs at h with hclean
      · obtain rfl := Option.some.inj h
        have hsuccess : f.successRoles failed unattributed = [.onSuccess] := by
          rw [hpath] at hclean
          exact if_pos hclean
        refine hi.wroteStage hc (by rw [hc]; rfl) ?_ (hwin.send
          (.successSent failed unattributed { columns with successTaskId := some task })
          ⟨b, .onSuccess, task⟩ (.enqueued call inherited now) rfl ?_) rfl rfl rfl
        · intro k hk
          obtain rfl := Option.some.inj hk
          exact hwin.held
        · refine ⟨?_, htotal⟩
          rw [List.map_append, hroles, hsuccess]
          rfl
      · obtain rfl := Option.some.inj h
        have hnone : f.successRoles failed unattributed = [] := by
          rw [hpath] at hclean
          exact if_neg hclean
        refine hi.turnedStage hc (by rw [hc]; rfl) hwin ⟨?_, htotal⟩ rfl
        rw [hroles, hnone, List.append_nil]
    · cases h
  | store x =>
    simp only [stepComplete] at h
    split at h
    · next b i failed unattributed columns hc =>
      obtain ⟨f, g, sent, hwin⟩ := hi.winningYet hc rfl fun _ _ => by simp
      obtain ⟨hsent, htotal⟩ := hwin.sent
      have hpart := hwin.part (hi.stand.whole b)
      split at h
      · next g' hg' =>
        obtain rfl := Option.some.inj h
        have hrow : (s.view x).batches b = some g := congrArg BatchPart.row hpart
        rw [hrow] at hg'
        obtain rfl := Option.some.inj hg'
        refine hi.wroteStage hc (by rw [hc]; rfl) ?_
          (hwin.store (g.stored columns) hwin.completed.1 ?_ hsent) rfl rfl rfl
        · intro k hk
          obtain rfl := Option.some.inj hk
          exact hwin.held
        · change columns.totalCount.or g.totalCount = f.totalCount
          rw [hwin.completed.2]
          exact htotal
      · cases h
    · cases h
  | _ => cases h

/-- An exception leaves the statements of an `add` or of a `seal`. -/
theorem Inv.failed {keep : Bool} (hi : s.Inv) (hcall : (s.callers x).call.Ordinary)
    (hin : (s.callers x).call.inside = true) :
    (s.went x (if (s.callers x).call.inner = 1 then s.db.undo x keep else s.db)
      (s.callers x).call.failed).Inv := by
  have hx := hi.stands x
  have hinside := (hi.block x).inside hin
  have hle := (s.callers x).call.inner_le
  have hnext : ∀ call : BatchCall, call = (s.callers x).call.failed → call.Ordinary ∧
      call.owes = none ∧ call.inner = 0 ∧ call.failing = true ∧ call.inside = true := by
    rintro call rfl
    cases hc : (s.callers x).call with
    | idle => simp [hc, BatchCall.inside] at hin
    | adding b i stage => exact ⟨BatchCall.ordinary_adding b i _, rfl, rfl, rfl, rfl⟩
    | sealing b stage => exact ⟨BatchCall.ordinary_sealing b _, rfl, rfl, rfl, rfl⟩
    | completing b i stage => exact absurd hc (hcall b i stage)
  obtain ⟨hfailed, howes, hinner, hfailing, hin'⟩ := hnext _ rfl
  have htouches := hfailed.touches.trans hcall.touches.symm
  have hunsteady : (s.callers x).call.failed.promise.steady → False := fun h =>
    absurd (hfailing.symm.trans h) (by simp)
  by_cases hone : (s.callers x).call.inner = 1
  · rw [if_pos hone]
    cases hp : s.db.saves x with
    | nil =>
      rw [hp, hone] at hinside
      exact absurd hinside (by simp)
    | cons p rest =>
      have hcommitted : (s.db.undo x keep).committed = s.db.committed := by simp [Ledger.undo, hp]
      have hsaves : (s.db.undo x keep).saves x = rest := by simp [Ledger.undo, hp]
      refine hi.own (u := { s.callers x with call := (s.callers x).call.failed })
        Ledger.spares_undo hcommitted
        (hx.undone hp howes hinner (fun h => (hunsteady h).elim) hle htouches) ?_
        (.of_ordinary hfailed) rfl rfl
      refine ⟨fun h => absurd (hin'.symm.trans h) (by simp), fun _ => ?_⟩
      rw [hp, List.length_cons] at hinside
      change (s.callers x).call.failed.inner + (s.callers x).opened.toNat ≤ _
      rw [hsaves]
      omega
  · rw [if_neg hone]
    have hzero : (s.callers x).call.inner = 0 := by omega
    exact hi.own (u := { s.callers x with call := (s.callers x).call.failed }) .refl rfl
      (hx.turned (fun h => (hunsteady h).elim) (fun k hk => by simp [BatchCall.promise, howes] at hk)
        (hinner.trans hzero.symm) htouches)
      ((hi.block x).next hin hin' (hinner.trans hzero.symm) _) (.of_ordinary hfailed) rfl rfl

/-- A call has not begun, or has just begun: there is nothing of it in the transaction. -/
theorem Inv.refused (hi : s.Inv) (hc : (s.callers x).call = call) (hout : call.inside = false)
    (howes : call.owes = none) (hinner : call.inner = 0) (hsteady : call.failing = false) :
    (s.setCall x .idle).Inv := by
  have hx := hi.standsAt hc
  have hblock := (hi.block x).outside (by rw [hc]; exact hout)
  by_cases hcall : call.Ordinary
  · refine hi.own (u := { s.callers x with call := .idle }) .refl rfl
      (hx.turned (fun _ => ?_) (fun k hk => by cases hk) hinner.symm hcall.touches.symm) ?_
      (.of_ordinary BatchCall.ordinary_idle) rfl rfl
    · exact (Ledger.meets_of_none rfl).mpr (hi.seen hc hsteady howes)
    · exact ⟨fun _ => hblock, fun h => by cases h⟩
  · have hcompleting : ∃ b i stage, call = .completing b i stage := by
      simpa [BatchCall.Ordinary] using hcall
    obtain ⟨b, i, stage, rfl⟩ := hcompleting
    obtain ⟨ho, -⟩ := hi.complete x b i stage hc
    exact hi.emptied hc (hblock ho).1 .idle rfl rfl rfl

theorem Inv.entered (hi : s.Inv) (hc : (s.callers x).call = call) (call' : BatchCall)
    (hcall : call.Ordinary) (hcall' : call'.Ordinary)
    (howes : call.owes = none ∧ call'.owes = none) (hinner : call.inner = 0 ∧ call'.inner = 0)
    (hsteady : call.failing = false) (hin' : call'.inside = true) :
    (s.went x (if (s.callers x).opened then s.db.save x else s.db) call').Inv := by
  have hx := hi.standsAt hc
  have hwhole := hi.seen hc hsteady howes.1
  have hview : call'.promise.steady → Ledger.Meets part BatchPart.Whole call'.promise (s.view x) :=
    fun _ => (Ledger.meets_of_none howes.2).mpr hwhole
  have hnone : ∀ k ∈ call'.promise.owes, s.db.holder k = some x ∧
      ∃ o, call.promise.touches o (s.db.committed.part k) := fun k hk => by
    simp [BatchCall.promise, howes.2] at hk
  have htouches := hcall'.touches.trans hcall.touches.symm
  split_ifs with ho
  · have hsaves : (s.db.save x).saves x = s.db.point x :: s.db.saves x := Function.update_self ..
    refine hi.own (u := { s.callers x with call := call' }) Ledger.spares_save rfl
      (hx.save hview hnone (.inr ⟨hinner.2, hinner.1, hwhole⟩) htouches) ?_
      (.of_ordinary hcall') rfl rfl
    refine ⟨fun h => absurd (hin'.symm.trans h) (by simp), fun _ => ?_⟩
    change call'.inner + (s.callers x).opened.toNat ≤ _
    rw [hinner.2, ho, hsaves, List.length_cons]
    change 0 + 1 ≤ _
    omega
  · refine hi.own (u := { s.callers x with call := call' }) .refl rfl
      (hx.turned hview hnone (hinner.2.trans hinner.1.symm) htouches) ?_ (.of_ordinary hcall')
      rfl rfl
    refine ⟨fun h => absurd (hin'.symm.trans h) (by simp), fun _ => ?_⟩
    change call'.inner + (s.callers x).opened.toNat ≤ _
    rw [hinner.2, Bool.eq_false_iff.mpr ho]
    exact Nat.zero_le _

theorem owes_of_finished (h : call.finished = true) :
    call.owes = none ∧ call.inner = 0 ∧ call.failing = false ∧ call.inside = true := by
  unfold BatchCall.finished at h
  split at h
  · exact ⟨rfl, rfl, rfl, rfl⟩
  · exact ⟨rfl, rfl, rfl, rfl⟩
  · exact ⟨rfl, rfl, rfl, rfl⟩
  · exact ⟨rfl, rfl, rfl, rfl⟩
  · cases h

theorem owes_of_failing (h : call.failing = true) :
    call.owes = none ∧ call.inner = 0 ∧ call.inside = true := by
  unfold BatchCall.failing at h
  split at h
  · exact ⟨rfl, rfl, rfl⟩
  · exact ⟨rfl, rfl, rfl⟩
  · exact ⟨rfl, rfl, rfl⟩
  · cases h

/-- A session in a caller's transaction completes nothing. -/
theorem Inv.ordinary_of_opened (hi : s.Inv) (ho : (s.callers x).opened = true) :
    (s.callers x).call.Ordinary := by
  intro b i stage hc
  obtain ⟨hclosed, -⟩ := hi.complete x b i stage hc
  exact absurd (ho.symm.trans hclosed) (by simp)

/-- What `_reissue` runs again. -/
theorem reissued_cases {e : LostConflict} {call' : BatchCall} (h : call.reissued e = some call') :
    (∃ b i, call' = .adding b i .called) ∨ ∃ b i, call' = .completing b i .filtered := by
  unfold BatchCall.reissued at h
  split at h
  · obtain ⟨-, h⟩ := Option.ite_none_right_eq_some.mp h
    exact .inl ⟨_, _, (Option.some.inj h).symm⟩
  · obtain ⟨-, h⟩ := Option.ite_none_right_eq_some.mp h
    exact .inr ⟨_, _, (Option.some.inj h).symm⟩
  · cases h

theorem stepBlock_inv (hi : s.Inv) (h : s.stepBlock a = some s') : s'.Inv := by
  cases a with
  | refuse x =>
    simp only [stepBlock] at h
    split at h
    · next b hc =>
      obtain rfl := Option.some.inj h
      exact hi.refused hc rfl rfl rfl rfl
    · next b hc =>
      obtain rfl := Option.some.inj h
      exact hi.refused hc rfl rfl rfl rfl
    · next b hc =>
      obtain rfl := Option.some.inj h
      exact hi.refused hc rfl rfl rfl rfl
    · cases h
  | enter x =>
    simp only [stepBlock] at h
    split at h
    · next b i hc =>
      obtain rfl := Option.some.inj h
      exact hi.entered hc (.adding b i .entered) (BatchCall.ordinary_adding b i _)
        (BatchCall.ordinary_adding b i _) ⟨rfl, rfl⟩ ⟨rfl, rfl⟩ rfl rfl
    · next b hc =>
      obtain rfl := Option.some.inj h
      exact hi.entered hc (.sealing b .entered) (BatchCall.ordinary_sealing b _)
        (BatchCall.ordinary_sealing b _) ⟨rfl, rfl⟩ ⟨rfl, rfl⟩ rfl rfl
    · next b i hc =>
      obtain rfl := Option.some.inj h
      obtain ⟨ho, -, hnone, -⟩ := hi.complete x b i .filtered hc
      have hwork : s.db.work x = [] := hnone (by rw [hc]; rfl) (by rw [hc]; rfl)
      rw [if_neg (by simp [ho])]
      exact hi.emptied hc hwork (.completing b i .entered) rfl rfl rfl
    · cases h
  | fail x keep =>
    obtain ⟨⟨hin, -⟩, h⟩ := Option.ite_none_right_eq_some.mp h
    obtain rfl := Option.some.inj h
    cases hc : (s.callers x).call with
    | completing b i stage =>
      rw [hc] at hin
      exact hi.failing hc (by rw [hc]; exact hin) rfl rfl
    | _ =>
      rw [← hc]
      apply hi.failed _ hin
      rw [hc]
      exact fun _ _ _ h => by cases h
  | leave x =>
    obtain ⟨hdone, h⟩ := Option.ite_none_right_eq_some.mp h
    obtain rfl := Option.some.inj h
    obtain ⟨howes, hinner, hsteady, -⟩ := owes_of_finished hdone
    have hwhole := hi.seen rfl hsteady howes
    split_ifs with ho
    · have hcall := hi.ordinary_of_opened ho
      refine hi.own (u := { s.callers x with call := .idle }) Ledger.spares_forget rfl
        ((hi.stands x).forget (fun _ => (Ledger.meets_of_none rfl).mpr hwhole) rfl rfl
          (BatchCall.inner_le _) hcall.touches.symm) ?_ (.of_ordinary BatchCall.ordinary_idle)
        rfl rfl
      exact blockOk_opened rfl ho
    · exact hi.commit (u := { s.callers x with call := .idle }) hwhole rfl rfl rfl
  | raise x keep =>
    obtain ⟨hfailing, h⟩ := Option.ite_none_right_eq_some.mp h
    obtain rfl := Option.some.inj h
    obtain ⟨-, hinner, hin⟩ := owes_of_failing hfailing
    split_ifs with ho
    · have hcall := hi.ordinary_of_opened ho
      have hinside := (hi.block x).inside hin
      cases hp : s.db.saves x with
      | nil =>
        rw [hp, ho] at hinside
        exact absurd hinside (by simp)
      | cons p rest =>
        have hcommitted : (s.db.undo x keep).committed = s.db.committed := by
          simp [Ledger.undo, hp]
        exact hi.own (u := { s.callers x with call := .idle }) Ledger.spares_undo hcommitted
          ((hi.stands x).undone hp rfl rfl (fun _ => hinner) (BatchCall.inner_le _)
            hcall.touches.symm) (blockOk_opened rfl ho) (.of_ordinary BatchCall.ordinary_idle) rfl
          rfl
    · exact hi.rolledBack (u := { s.callers x with call := .idle }) (.inl rfl) rfl rfl
  | lose x conflict =>
    obtain ⟨hin, h⟩ := Option.ite_none_right_eq_some.mp h
    split_ifs at h with ho
    · obtain rfl := Option.some.inj h
      exact hi.rolledBack (u := { s.callers x with call := .idle, lost := true }) (.inl rfl) rfl rfl
    · obtain rfl := Option.some.inj h
      have hclosed : (s.callers x).opened = false := Bool.eq_false_iff.mpr ho
      refine hi.rolledBack
        (u := { s.callers x with
          call := (conflict.bind (s.callers x).call.reissued).getD .idle }) ?_ rfl rfl
      cases hr : conflict.bind (s.callers x).call.reissued with
      | none => exact .inl rfl
      | some call' =>
        obtain ⟨e, -, he⟩ := Option.bind_eq_some_iff.mp hr
        rcases reissued_cases he with ⟨b, i, rfl⟩ | ⟨b, i, rfl⟩
        · exact .inr ⟨rfl, rfl, .inl (BatchCall.ordinary_adding b i _)⟩
        · exact .inr ⟨rfl, rfl, .inr ⟨hclosed, rfl⟩⟩
  | _ => cases h

/-- Somebody outside moves task rows. -/
theorem Inv.others {c : BatchTables} (hi : s.Inv) (hdb : s'.db = s.db.put c)
    (hcallers : s'.callers = s.callers) (hparts : ∀ k, c.part k = s.db.committed.part k) :
    s'.Inv := by
  refine hi.put (fun k _ => hparts k) (fun k => ?_) hdb hcallers
  rw [hparts k]
  exact hi.stand.whole k

theorem stepOther_inv (hi : s.Inv) (h : s.stepOther a = some s') : s'.Inv := by
  cases a with
  | elsewhere task call inherited now =>
    obtain ⟨-, h⟩ := Option.ite_none_right_eq_some.mp h
    obtain rfl := Option.some.inj h
    exact hi.others rfl rfl fun _ => rfl
  | row t action =>
    obtain ⟨r, -, rfl⟩ := Option.map_eq_some_iff.mp h
    exact hi.others rfl rfl fun _ => rfl
  | prune t =>
    simp only [stepOther] at h
    split at h
    · obtain ⟨-, h⟩ := Option.ite_none_right_eq_some.mp h
      obtain rfl := Option.some.inj h
      exact hi.others rfl rfl fun _ => rfl
    · cases h
  | _ => cases h

/-- The five groups of steps. -/
theorem step_cases (h : s.step a = some s') : s.stepCaller a = some s' ∨ s.stepCall a = some s' ∨
    s.stepComplete a = some s' ∨ s.stepBlock a = some s' ∨ s.stepOther a = some s' := by
  unfold step at h
  simp only [Option.or_eq_some_iff] at h
  tauto

theorem step_inv (hi : s.Inv) (h : s.step a = some s') : s'.Inv := by
  rcases step_cases h with h | h | h | h | h
  · exact stepCaller_inv hi h
  · exact stepCall_inv hi h
  · exact stepComplete_inv hi h
  · exact stepBlock_inv hi h
  · exact stepOther_inv hi h

theorem inv_of_start (h : s.Start) : s.Inv := by
  obtain ⟨hdb, hcallers⟩ := h
  have hwhole : ∀ k, (part ⟨fun _ => none, [], fun _ => none, []⟩ k).Whole := fun k =>
    ⟨fun _ => rfl, fun _ h => (by cases h), fun _ h => (by cases h), fun _ => rfl, List.nodup_nil,
      List.nodup_nil⟩
  refine ⟨⟨hdb ▸ hwhole, fun x => ?_⟩, fun x => ?_, fun x => ?_⟩
  · rw [hdb, hcallers x]
    exact Ledger.standing_nil (Ledger.guarded_idle _) rfl rfl hwhole rfl
  · rw [hdb, hcallers x]
    exact ⟨fun _ _ => ⟨rfl, rfl⟩, fun h => by cases h⟩
  · rw [hcallers x]
    exact .of_ordinary BatchCall.ordinary_idle

theorem reachable_inv (h : batchSystem.Reachable s) : s.Inv :=
  h.invariant Inv (fun _ hs => inv_of_start hs) fun _ _ _ hi hs => step_inv hi hs

end Steps

end BatchState

end DjangoOx
