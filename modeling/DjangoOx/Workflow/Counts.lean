import DjangoOx.Workflow.Adding

/-! What a run of adds and seals keeps of each caller's transaction, and of the counts of the
workflows: a step of the callers at a time. -/
namespace DjangoOx

open Machine

/-- A row's counts are right: the nodes it counts until they are retired, and the total frozen when
it stopped taking them. -/
def Tallied (v : Option OxpullWorkflow × List AddedNode) : Prop :=
  match v.1 with
  | none => v.2 = []
  | some f => (f.retired = false → f.nodeCount = v.2.length) ∧
      (f.status = .opened → f.retired = false) ∧
      (f.status ≠ .opened → f.totalCount = some f.nodeCount)

/-- The row counts a node that is not there yet. -/
def Owed (v : Option OxpullWorkflow × List AddedNode) : Prop :=
  ∃ f, v.1 = some f ∧ f.status = .opened ∧ f.retired = false ∧ f.nodeCount = v.2.length + 1

namespace WorkflowTables

variable {c c' : WorkflowTables} {w : ℕ} {o : WorkflowWrite} {f : OxpullWorkflow}

theorem projects : Ledger.Projects write WorkflowWrite.key counted where
  skip c o w h := by
    cases o with
    | workflow v f =>
      have hne : w ≠ v := fun he => h (he ▸ rfl)
      simp [counted, write, hne]
    | task t st => rfl
    | node n =>
      have hne : ¬ n.workflow = w := fun he => h (he ▸ rfl)
      simp [counted, write, hne]
    | edge e => rfl
  congr c c' o w h := by
    have h₁ : c.workflows w = c'.workflows w := congrArg Prod.fst h
    have h₂ : c.nodes.filter (·.workflow = w) = c'.nodes.filter (·.workflow = w) :=
      congrArg Prod.snd h
    cases o with
    | workflow v f =>
      by_cases he : w = v
      · simp [counted, write, he ▸ h₂, he]
      · simp [counted, write, h₁, h₂, he]
    | task t st => exact h
    | node n => simp [counted, write, h₁, h₂]
    | edge e => exact h

theorem counted_workflow : (c.write (.workflow w f)).counted w = (some f, (c.counted w).2) := by
  simp [counted, write]

theorem counted_workflow_of_ne {v : ℕ} (h : v ≠ w) :
    (c.write (.workflow w f)).counted v = c.counted v :=
  projects.skip c _ v fun hv => h (Option.some.inj hv).symm

theorem counted_node {n : AddedNode} : (c.write (.node n)).counted n.workflow =
    ((c.counted n.workflow).1, (c.counted n.workflow).2 ++ [n]) := by
  simp [counted, write]

theorem counted_node_of_ne {n : AddedNode} (h : w ≠ n.workflow) :
    (c.write (.node n)).counted w = c.counted w :=
  projects.skip c _ w fun hw => h (Option.some.inj hw).symm

theorem counted_unkeyed (h : o.key = none) : (c.write o).counted w = c.counted w :=
  projects.skip c o w fun hw => by simp [h] at hw

/-- The counts are right, of `owes` but for the one node. -/
def Fits (owes : Option ℕ) (c : WorkflowTables) : Prop :=
  ∀ w, if owes = some w then Owed (c.counted w) else Tallied (c.counted w)

/-- A write to a workflow's row or nodes stands over a row that takes nodes. -/
def Opens (c : WorkflowTables) (o : WorkflowWrite) : Prop :=
  ∀ w ∈ o.key, ∀ f, c.workflows w = some f → f.status = .opened

theorem Fits.of_counted {owes : Option ℕ} (h : c.Fits owes)
    (he : ∀ w, c'.counted w = c.counted w) : c'.Fits owes := by
  intro w
  rw [he]
  exact h w

theorem Fits.sound (h : c.Fits none) (w : ℕ) : Tallied (c.counted w) := h w

theorem fits_none (h : ∀ w, Tallied (c.counted w)) : c.Fits none := h

theorem Fits.owed (h : c.Fits (some w)) : Owed (c.counted w) := by
  have hw := h w
  rwa [if_pos rfl] at hw

theorem Fits.sound_of_ne (h : c.Fits (some w)) {v : ℕ} (hv : v ≠ w) : Tallied (c.counted v) := by
  have hfits := h v
  rwa [if_neg fun he => hv (Option.some.inj he).symm] at hfits

theorem fits_some (hw : Owed (c.counted w)) (h : ∀ v, v ≠ w → Tallied (c.counted v)) :
    c.Fits (some w) := by
  intro v
  by_cases hv : v = w
  · subst hv
    rw [if_pos rfl]
    exact hw
  · rw [if_neg fun he => hv (Option.some.inj he).symm]
    exact h v hv

/-- What an open row says. -/
theorem Fits.opened (h : c.Fits none) (hf : c.workflows w = some f) (ho : f.status = .opened) :
    f.retired = false ∧ f.nodeCount = (c.counted w).2.length := by
  have hsound := h.sound w
  have hrow : (c.counted w).1 = some f := hf
  unfold Tallied at hsound
  rw [hrow] at hsound
  exact ⟨hsound.2.1 ho, hsound.1 (hsound.2.1 ho)⟩

theorem Fits.row {g : OxpullWorkflow} (h : c.Fits none) (hg : Tallied (some g, (c.counted w).2)) :
    (c.write (.workflow w g)).Fits none := by
  apply fits_none
  intro v
  by_cases hv : v = w
  · subst hv
    rw [counted_workflow]
    exact hg
  · rw [counted_workflow_of_ne hv]
    exact h.sound v

theorem Fits.take (h : c.Fits none) (hf : c.workflows w = some f) (ho : f.status = .opened) :
    (c.write (.workflow w { f with nodeCount := f.nodeCount + 1 })).Fits (some w) := by
  obtain ⟨hretired, hcount⟩ := h.opened hf ho
  apply fits_some
  · rw [counted_workflow]
    exact ⟨_, rfl, ho, hretired, congrArg (· + 1) hcount⟩
  · intro v hv
    rw [counted_workflow_of_ne hv]
    exact h.sound v

theorem Fits.node {n : AddedNode} (h : c.Fits (some n.workflow)) :
    (c.write (.node n)).Fits none := by
  apply fits_none
  intro v
  by_cases hv : v = n.workflow
  · subst hv
    obtain ⟨f, hf, ho, hretired, hcount⟩ := h.owed
    rw [counted_node, hf]
    refine ⟨fun _ => ?_, fun _ => hretired, fun h => absurd ho h⟩
    rw [hcount, List.length_append]
    rfl
  · rw [counted_node_of_ne hv]
    exact h.sound_of_ne hv

end WorkflowTables

namespace AddState

open WorkflowTables

/-- Inside the block of a call: the transaction goes back to where the call began if it raises. -/
def InsideOk (u : WorkflowCaller) (inner : ℕ) (saves : List (Savepoint WorkflowWrite ℕ)) : Prop :=
  if u.opened = true then ∃ p rest, saves.drop inner = p :: rest ∧ p.work = u.entry
  else u.entry = []

/-- Where the caller's transaction goes back to if the call raises. -/
def EntryOk (u : WorkflowCaller) (work : List WorkflowWrite)
    (saves : List (Savepoint WorkflowWrite ℕ)) : Prop :=
  if u.call.inside = true then InsideOk u u.call.inner saves
  else (u.opened = false → work = []) ∧ (u.call ≠ .idle → work = u.entry)

/-- What a run keeps of one caller's transaction. -/
structure CallerInv (db : Ledger WorkflowTables WorkflowWrite ℕ ℕ) (u : WorkflowCaller) (x : ℕ) :
    Prop where
  guarded : db.Guarded WorkflowWrite.key x
  view : u.call.failing = false → (db.view WorkflowTables.write x).Fits u.call.owes
  locked : ∀ w ∈ u.call.owes, db.holder w = some x
  saved : ∀ p ∈ (db.saves x).drop u.call.inner,
    (p.work.foldl WorkflowTables.write db.committed).Fits none
  opens : ∀ o ∈ db.work x, db.committed.Opens o
  savedOpens : ∀ p ∈ db.saves x, ∀ o ∈ p.work, db.committed.Opens o
  entry : EntryOk u (db.work x) (db.saves x)

structure Inv (s : AddState) : Prop where
  sound : s.db.committed.Fits none
  callers : ∀ x, CallerInv s.db (s.callers x) x

section Others

variable {db db' : Ledger WorkflowTables WorkflowWrite ℕ ℕ} {u : WorkflowCaller} {x y w : ℕ}

/-- When what is committed moves, and nothing of it under the caller's locks. -/
theorem CallerInv.moved (hi : CallerInv db u y) (hs : Ledger.Spares x db db') (hy : y ≠ x)
    (hc : ∀ w, db.holder w = some y → db'.committed.counted w = db.committed.counted w)
    (hsound : db'.committed.Fits none) : CallerInv db' u y := by
  have hwork := hs.work y hy
  have hsaves := hs.saves y hy
  have hopens : ∀ o : WorkflowWrite, (∀ w ∈ o.key, db.holder w = some y) →
      db.committed.Opens o → db'.committed.Opens o := by
    intro o hk ho w hw f hf
    have hsame : db'.committed.workflows w = db.committed.workflows w :=
      congrArg Prod.fst (hc w (hk w hw))
    exact ho w hw f (hsame ▸ hf)
  have hheld : ∀ p ∈ db.saves y, ∀ o ∈ p.work, ∀ w ∈ o.key, db.holder w = some y := by
    intro p hp o ho w hw
    exact hi.guarded.held p hp w (hi.guarded.saved p hp o ho w hw)
  refine ⟨hi.guarded.spared hs hy, fun hst w => ?_, fun w hw => hs.holder y hy w (hi.locked w hw),
    fun p hp w => ?_, fun o ho => ?_, fun p hp o ho => ?_, ?_⟩
  · have hview := hi.view hst w
    unfold Ledger.view at hview ⊢
    rw [hwork]
    rcases projects.moved hi.guarded.work hc w with hm | hm
    · rw [hm]
      exact hview
    · split_ifs with how
      · rw [projects.foldl_congr (hc w (hi.locked w how))]
        rw [if_pos how] at hview
        exact hview
      · rw [hm]
        exact hsound w
  · rw [hsaves] at hp
    have hview := hi.saved p hp w
    rcases projects.moved (hheld p (List.mem_of_mem_drop hp)) hc w with hm | hm
    · rw [hm]
      exact hview
    · rw [hm]
      exact hsound w
  · rw [hwork] at ho
    exact hopens o (hi.guarded.work o ho) (hi.opens o ho)
  · rw [hsaves] at hp
    exact hopens o (hheld p hp o ho) (hi.savedOpens p hp o ho)
  · rw [hwork, hsaves]
    exact hi.entry

/-- What another caller does in its transaction. -/
theorem CallerInv.spared (hi : CallerInv db u y) (hs : Ledger.Spares x db db') (hy : y ≠ x)
    (hc : db'.committed = db.committed) (hsound : db.committed.Fits none) : CallerInv db' u y :=
  hi.moved hs hy (fun w _ => by rw [hc]) (hc ▸ hsound)

end Others

end AddState

namespace AddState

open WorkflowTables

section Own

variable {db : Ledger WorkflowTables WorkflowWrite ℕ ℕ} {u u' : WorkflowCaller} {x w : ℕ}
  {f : OxpullWorkflow} {o : WorkflowWrite} {keep : Bool}

/-- A row that a transaction sees open is open, or not there, in what is committed. -/
theorem CallerInv.opened (hi : CallerInv db u x)
    (hf : (db.view WorkflowTables.write x).workflows w = some f) (ho : f.status = .opened)
    (g : OxpullWorkflow) (hg : db.committed.workflows w = some g) : g.status = .opened := by
  by_contra hne
  have hskip : ∀ o ∈ db.work x, w ∉ o.key := fun o hw hk => hne (hi.opens o hw w hk g hg)
  have hsame : (db.view WorkflowTables.write x).counted w = db.committed.counted w :=
    projects.foldl_skip hskip
  have hrow : (db.view WorkflowTables.write x).workflows w = db.committed.workflows w :=
    congrArg Prod.fst hsame
  rw [hrow, hg] at hf
  obtain rfl := Option.some.inj hf
  exact hne ho

/-- The caller goes on with nothing written. -/
theorem CallerInv.turned (hi : CallerInv db u x)
    (hview : u'.call.failing = false → (db.view WorkflowTables.write x).Fits u'.call.owes)
    (hlocked : ∀ w ∈ u'.call.owes, db.holder w = some x) (hinner : u'.call.inner = u.call.inner)
    (hentry : EntryOk u' (db.work x) (db.saves x)) : CallerInv db u' x where
  guarded := hi.guarded
  view := hview
  locked := hlocked
  saved := hinner ▸ hi.saved
  opens := hi.opens
  savedOpens := hi.savedOpens
  entry := hentry

theorem CallerInv.lock (hi : CallerInv db u x) : CallerInv (db.lock x w) u x where
  guarded := hi.guarded.lock
  view := hi.view
  locked v hv := Ledger.holder_lock (hi.locked v hv) w
  saved := hi.saved
  opens := hi.opens
  savedOpens := hi.savedOpens
  entry := hi.entry

theorem view_write : (db.write x o).view WorkflowTables.write x =
    (db.view WorkflowTables.write x).write o := by
  unfold Ledger.view
  rw [show (db.write x o).work x = db.work x ++ [o] from Function.update_self .., List.foldl_append]
  rfl

theorem CallerInv.wrote (hi : CallerInv db u x) (hkey : ∀ w ∈ o.key, db.holder w = some x)
    (hopen : db.committed.Opens o)
    (hview : ((db.view WorkflowTables.write x).write o).Fits u'.call.owes)
    (hlocked : ∀ w ∈ u'.call.owes, db.holder w = some x) (hinner : u'.call.inner = u.call.inner)
    (hentry : EntryOk u' (db.work x ++ [o]) (db.saves x)) : CallerInv (db.write x o) u' x := by
  have hwork : (db.write x o).work x = db.work x ++ [o] := Function.update_self ..
  refine ⟨hi.guarded.write hkey, fun _ => ?_, hlocked, hinner ▸ hi.saved, fun q hq => ?_,
    hi.savedOpens, ?_⟩
  · rw [view_write]
    exact hview
  · rw [hwork] at hq
    rcases List.mem_append.mp hq with hq | hq
    · exact hi.opens q hq
    · rw [List.mem_singleton.mp hq]
      exact hopen
  · rw [hwork]
    exact hentry

theorem CallerInv.save (hi : CallerInv db u x)
    (hview : u'.call.failing = false → (db.view WorkflowTables.write x).Fits u'.call.owes)
    (hlocked : ∀ w ∈ u'.call.owes, db.holder w = some x)
    (hinner : u'.call.inner = u.call.inner + 1 ∨
      u'.call.inner = 0 ∧ u.call.inner = 0 ∧ (db.view WorkflowTables.write x).Fits none)
    (hentry : EntryOk u' (db.work x) (db.point x :: db.saves x)) : CallerInv (db.save x) u' x := by
  have hsaves : (db.save x).saves x = db.point x :: db.saves x := Function.update_self ..
  refine ⟨hi.guarded.save, hview, hlocked, ?_, hi.opens, ?_, ?_⟩
  · rw [hsaves]
    rcases hinner with hinner | ⟨hinner, hzero, hfits⟩
    · rw [hinner, List.drop_succ_cons]
      exact hi.saved
    · have hsaved := hi.saved
      rw [hzero, List.drop_zero] at hsaved
      rw [hinner, List.drop_zero]
      exact List.forall_mem_cons.mpr ⟨hfits, hsaved⟩
  · rw [hsaves]
    exact List.forall_mem_cons.mpr ⟨hi.opens, hi.savedOpens⟩
  · rw [hsaves]
    exact hentry

theorem CallerInv.forget (hi : CallerInv db u x)
    (hview : u'.call.failing = false → (db.view WorkflowTables.write x).Fits u'.call.owes)
    (howes : u'.call.owes = none) (hinner : u'.call.inner = 0) (hle : u.call.inner ≤ 1)
    (hentry : EntryOk u' (db.work x) (db.saves x).tail) : CallerInv (db.forget x) u' x := by
  have hsaves : (db.forget x).saves x = (db.saves x).tail := Function.update_self ..
  refine ⟨hi.guarded.forget, hview, by simp [howes], ?_, hi.opens, ?_, ?_⟩
  · rw [hsaves, hinner, List.drop_zero]
    intro p hp
    apply hi.saved p
    rw [← List.drop_one] at hp
    exact (List.drop_subset_drop_left _ hle) hp
  · rw [hsaves]
    exact fun p hp => hi.savedOpens p (List.mem_of_mem_tail hp)
  · rw [hsaves]
    exact hentry

theorem CallerInv.undone {p : Savepoint WorkflowWrite ℕ} {rest : List (Savepoint WorkflowWrite ℕ)}
    (hi : CallerInv db u x) (hp : db.saves x = p :: rest) (hinner : u'.call.inner = 0)
    (howes : u'.call.owes = none) (hsteady : u'.call.failing = false → u.call.inner = 0)
    (hle : u.call.inner ≤ 1) (hentry : EntryOk u' p.work rest) :
    CallerInv (db.undo x keep) u' x := by
  have hguarded : (db.undo x keep).Guarded WorkflowWrite.key x := hi.guarded.undo
  have hwork : (db.undo x keep).work x = p.work := by
    simp [Ledger.undo, hp]
  have hsaves : (db.undo x keep).saves x = rest := by
    simp [Ledger.undo, hp]
  have hcommitted : (db.undo x keep).committed = db.committed := by
    simp [Ledger.undo, hp]
  have hmem : p ∈ db.saves x := hp ▸ List.mem_cons_self
  refine ⟨hguarded, fun hst => ?_, by simp [howes], ?_, ?_, ?_, ?_⟩
  · unfold Ledger.view
    rw [hwork, hcommitted, howes]
    apply hi.saved p
    rw [hsteady hst]
    exact hmem
  · rw [hsaves, hcommitted, hinner, List.drop_zero]
    intro q hq
    apply hi.saved q
    have hdrop : q ∈ (db.saves x).drop 1 := by
      rw [hp]
      exact hq
    exact (List.drop_subset_drop_left _ hle) hdrop
  · rw [hwork, hcommitted]
    exact hi.savedOpens p hmem
  · rw [hsaves, hcommitted]
    exact fun q hq => hi.savedOpens q (hp ▸ List.mem_cons_of_mem _ hq)
  · rw [hwork, hsaves]
    exact hentry

theorem callerInv_rollback (hsound : db.committed.Fits none) (howes : u'.call.owes = none)
    (hentry : EntryOk u' [] []) : CallerInv (db.rollback x) u' x := by
  have hwork : (db.rollback x).work x = [] := Function.update_self ..
  have hsaves : (db.rollback x).saves x = [] := Function.update_self ..
  refine ⟨Ledger.guarded_rollback, fun _ => ?_, by simp [howes], ?_, ?_, ?_, ?_⟩
  · unfold Ledger.view
    rw [hwork, howes]
    exact hsound
  · rw [hsaves, List.drop_nil]
    exact fun p hp => by cases hp
  · rw [hwork]
    exact fun o ho => by cases ho
  · rw [hsaves]
    exact fun p hp => by cases hp
  · rw [hwork, hsaves]
    exact hentry

theorem callerInv_commit (hview : (db.view WorkflowTables.write x).Fits none)
    (howes : u'.call.owes = none) (hentry : EntryOk u' [] []) :
    CallerInv (db.commit WorkflowTables.write x) u' x := by
  have hwork : (db.commit WorkflowTables.write x).work x = [] := Function.update_self ..
  have hsaves : (db.commit WorkflowTables.write x).saves x = [] := Function.update_self ..
  refine ⟨Ledger.guarded_commit, fun _ => ?_, by simp [howes], ?_, ?_, ?_, ?_⟩
  · unfold Ledger.view
    rw [hwork, howes]
    exact hview
  · rw [hsaves, List.drop_nil]
    exact fun p hp => by cases hp
  · rw [hwork]
    exact fun o ho => by cases ho
  · rw [hsaves]
    exact fun p hp => by cases hp
  · rw [hwork, hsaves]
    exact hentry

end Own

section Step

variable {s s' : AddState} {x : ℕ} {u : WorkflowCaller}
  {db : Ledger WorkflowTables WorkflowWrite ℕ ℕ}

/-- A step of one caller that commits nothing. -/
theorem Inv.own (hi : s.Inv) (hs : Ledger.Spares x s.db db) (hc : db.committed = s.db.committed)
    (hx : CallerInv db u x) (hdb : s'.db = db)
    (hcallers : s'.callers = Function.update s.callers x u) : s'.Inv := by
  refine ⟨by rw [hdb, hc]; exact hi.sound, fun y => ?_⟩
  rw [hdb, hcallers]
  by_cases hy : y = x
  · subst hy
    rw [Function.update_self]
    exact hx
  · rw [Function.update_of_ne hy]
    exact (hi.callers y).spared hs hy hc hi.sound

theorem Inv.commit (hi : s.Inv) (hview : (s.view x).Fits none) (howes : u.call.owes = none)
    (hentry : EntryOk u [] []) (hdb : s'.db = s.db.commit WorkflowTables.write x)
    (hcallers : s'.callers = Function.update s.callers x u) : s'.Inv := by
  refine ⟨by rw [hdb]; exact hview, fun y => ?_⟩
  rw [hdb, hcallers]
  by_cases hy : y = x
  · subst hy
    rw [Function.update_self]
    exact callerInv_commit hview howes hentry
  · rw [Function.update_of_ne hy]
    refine (hi.callers y).moved Ledger.spares_commit hy (fun w hw => ?_) hview
    exact projects.commit_other (hi.callers x).guarded hy w hw

/-- Somebody outside commits, under no lock of a caller's. -/
theorem Inv.put {c : WorkflowTables} (hi : s.Inv)
    (hc : ∀ w, s.db.holder w ≠ none → c.counted w = s.db.committed.counted w)
    (hsound : c.Fits none) : (s.setDb (s.db.put c)).Inv := by
  refine ⟨hsound, fun y => ?_⟩
  have hspares : Ledger.Spares (y + 1) s.db (s.db.put c) := Ledger.spares_put
  refine (hi.callers y).moved hspares (by omega) (fun w hw => hc w ?_) hsound
  rw [hw]
  exact Option.some_ne_none y

end Step

end AddState

namespace AddState

open WorkflowTables

variable {s s' : AddState} {x w : ℕ} {a : AddAction}

theorem Inv.idle (hi : s.Inv) (hc : (s.callers x).call = .idle) :
    (s.view x).Fits none ∧ ((s.callers x).opened = false → s.db.work x = []) := by
  have hx := hi.callers x
  have hview := hx.view (by rw [hc]; rfl)
  have hentry := hx.entry
  rw [hc] at hview
  unfold EntryOk at hentry
  rw [hc] at hentry
  exact ⟨hview, hentry.1⟩

/-- What there is to know outside a call. -/
theorem entryOk_idle {u : WorkflowCaller} {work : List WorkflowWrite}
    {saves : List (Savepoint WorkflowWrite ℕ)} (hc : u.call = .idle)
    (h : u.opened = false → work = []) : EntryOk u work saves := by
  unfold EntryOk
  rw [hc]
  exact ⟨h, fun hne => absurd rfl hne⟩

/-- A call begins. -/
theorem Inv.begun {call : WorkflowCall} (hi : s.Inv) (hc : (s.callers x).call = .idle)
    (howes : call.owes = none) (hinner : call.inner = 0)
    (hentry : EntryOk { s.callers x with call := call, entry := s.db.work x } (s.db.work x)
      (s.db.saves x)) : (s.begun x call).Inv := by
  have hzero : (s.callers x).call.inner = 0 := by rw [hc]; rfl
  refine hi.own (u := { s.callers x with call := call, entry := s.db.work x }) .refl rfl
    ((hi.callers x).turned (fun _ => ?_) ?_ (hinner.trans hzero.symm) hentry) rfl rfl
  · rw [howes]
    exact (hi.idle hc).1
  · simp [howes]

/-- A new workflow's row. -/
theorem fits_create {c : WorkflowTables} (hc : c.Fits none) (hnone : c.workflows w = none) :
    (c.write (.workflow w ⟨.opened, 0, none, false⟩)).Fits none := by
  have hsound := hc.sound w
  unfold Tallied counted at hsound
  rw [hnone] at hsound
  have hnodes : (c.counted w).2 = [] := hsound
  apply hc.row
  rw [hnodes]
  exact ⟨fun _ => rfl, fun _ => rfl, fun h => absurd rfl h⟩

theorem stepCaller_inv (hi : s.Inv) (h : s.stepCaller a = some s') : s'.Inv := by
  cases a with
  | begin x =>
    obtain ⟨⟨⟨hc, -⟩, -⟩, h⟩ := Option.ite_none_right_eq_some.mp h
    obtain rfl := Option.some.inj h
    obtain ⟨hview, -⟩ := hi.idle hc
    refine hi.own (u := { s.callers x with opened := true }) .refl rfl
      ((hi.callers x).turned ?_ ?_ rfl ?_) rfl rfl
    · exact (hi.callers x).view
    · exact (hi.callers x).locked
    · exact entryOk_idle hc fun h => by cases h
  | savepoint x =>
    obtain ⟨⟨hc, ho, -⟩, h⟩ := Option.ite_none_right_eq_some.mp h
    obtain rfl := Option.some.inj h
    obtain ⟨hview, -⟩ := hi.idle hc
    have hx := hi.callers x
    have hinner : (s.callers x).call.inner = 0 := by rw [hc]; rfl
    have hentry : EntryOk (s.callers x) (s.db.work x) (s.db.point x :: s.db.saves x) :=
      entryOk_idle hc fun h => absurd (ho.symm.trans h) (by simp)
    exact hi.own Ledger.spares_save rfl
      (hx.save hx.view hx.locked (.inr ⟨hinner, hinner, hview⟩) hentry) rfl
      (Function.update_eq_self x s.callers).symm
  | release x =>
    obtain ⟨⟨hc, ho, -⟩, h⟩ := Option.ite_none_right_eq_some.mp h
    obtain rfl := Option.some.inj h
    have hx := hi.callers x
    have hinner : (s.callers x).call.inner = 0 := by rw [hc]; rfl
    have howes : (s.callers x).call.owes = none := by rw [hc]; rfl
    have hentry : EntryOk (s.callers x) (s.db.work x) (s.db.saves x).tail :=
      entryOk_idle hc fun h => absurd (ho.symm.trans h) (by simp)
    exact hi.own Ledger.spares_forget rfl (hx.forget hx.view howes hinner (by omega) hentry) rfl
      (Function.update_eq_self x s.callers).symm
  | undo x keep =>
    obtain ⟨⟨hc, ho, -⟩, h⟩ := Option.ite_none_right_eq_some.mp h
    obtain rfl := Option.some.inj h
    have hx := hi.callers x
    have hinner : (s.callers x).call.inner = 0 := by rw [hc]; rfl
    have howes : (s.callers x).call.owes = none := by rw [hc]; rfl
    cases hp : s.db.saves x with
    | nil =>
      have hsame : s.db.undo x keep = s.db := by simp [Ledger.undo, hp]
      rw [hsame]
      exact hi
    | cons p rest =>
      have hentry : EntryOk (s.callers x) p.work rest :=
        entryOk_idle hc fun h => absurd (ho.symm.trans h) (by simp)
      have hcommitted : (s.db.undo x keep).committed = s.db.committed := by simp [Ledger.undo, hp]
      exact hi.own Ledger.spares_undo hcommitted
        (hx.undone hp hinner howes (fun _ => hinner) (by omega) hentry) rfl
        (Function.update_eq_self x s.callers).symm
  | commit x =>
    obtain ⟨⟨hc, ho, -⟩, h⟩ := Option.ite_none_right_eq_some.mp h
    obtain rfl := Option.some.inj h
    have howes : (s.callers x).call.owes = none := by rw [hc]; rfl
    exact hi.commit (u := { s.callers x with opened := false }) (hi.idle hc).1 howes
      (entryOk_idle hc fun _ => rfl) rfl rfl
  | rollback x =>
    obtain ⟨⟨hc, -⟩, h⟩ := Option.ite_none_right_eq_some.mp h
    obtain rfl := Option.some.inj h
    have howes : (s.callers x).call.owes = none := by rw [hc]; rfl
    exact hi.own (u := { s.callers x with opened := false, lost := false })
      Ledger.spares_rollback rfl
      (callerInv_rollback hi.sound howes (entryOk_idle hc fun _ => rfl)) rfl rfl
  | create x w =>
    obtain ⟨⟨⟨hc, -⟩, hfree, hnone⟩, h⟩ := Option.ite_none_right_eq_some.mp h
    obtain ⟨hview, -⟩ := hi.idle hc
    have hx := hi.callers x
    have hseen : (s.view x).workflows w = none := by
      have hsame : (s.view x).counted w = s.db.committed.counted w :=
        projects.view_of_not_held hx.guarded (by rw [hfree]; simp)
      exact (congrArg Prod.fst hsame).trans hnone
    split_ifs at h with ho
    · obtain rfl := Option.some.inj h
      have hspares := (Ledger.spares_lock (s := s.db) (x := x) (k := w) (.inl hfree)).trans
        (Ledger.spares_write (o := WorkflowWrite.workflow w ⟨.opened, 0, none, false⟩))
      have howes : (s.callers x).call.owes = none := by rw [hc]; rfl
      refine hi.own hspares rfl (hx.lock.wrote ?_ ?_ ?_ ?_ rfl ?_) rfl
        (Function.update_eq_self x s.callers).symm
      · intro v hv
        obtain rfl := Option.some.inj hv
        exact Function.update_self ..
      · intro v hv g hg
        obtain rfl := Option.some.inj hv
        change s.db.committed.workflows w = some g at hg
        rw [hnone] at hg
        cases hg
      · rw [howes]
        exact fits_create hview hseen
      · simp [howes]
      · exact entryOk_idle hc fun h => absurd (ho.symm.trans h) (by simp)
    · obtain rfl := Option.some.inj h
      refine hi.put (fun v hv => ?_) (fits_create hi.sound hnone)
      exact counted_workflow_of_ne fun he => hv (he ▸ hfree)
  | add x c =>
    obtain ⟨⟨hc, -⟩, h⟩ := Option.ite_none_right_eq_some.mp h
    obtain rfl := Option.some.inj h
    obtain ⟨hview, hwork⟩ := hi.idle hc
    exact hi.begun hc rfl rfl ⟨hwork, fun _ => rfl⟩
  | sealOnce x w =>
    obtain ⟨⟨hc, -⟩, h⟩ := Option.ite_none_right_eq_some.mp h
    obtain rfl := Option.some.inj h
    obtain ⟨hview, hwork⟩ := hi.idle hc
    exact hi.begun hc rfl rfl ⟨hwork, fun _ => rfl⟩
  | _ => cases h

end AddState

namespace AddState

open WorkflowTables

variable {s s' : AddState} {x w : ℕ} {a : AddAction} {call : WorkflowCall}
  {db : Ledger WorkflowTables WorkflowWrite ℕ ℕ}

/-- What is known of a caller in the middle of a call. -/
theorem Inv.calling (hi : s.Inv) (hc : (s.callers x).call = call) :
    (call.failing = false → (s.view x).Fits call.owes) ∧ (∀ w ∈ call.owes, s.db.holder w = some x) ∧
      EntryOk { s.callers x with call := call } (s.db.work x) (s.db.saves x) := by
  subst hc
  exact ⟨(hi.callers x).view, (hi.callers x).locked, (hi.callers x).entry⟩

/-- The call goes on with nothing written. -/
theorem Inv.turned {call' : WorkflowCall} (hi : s.Inv) (hc : (s.callers x).call = call)
    (hview : call'.failing = false → (s.view x).Fits call'.owes)
    (hlocked : ∀ w ∈ call'.owes, s.db.holder w = some x) (hinner : call'.inner = call.inner)
    (hentry : EntryOk { s.callers x with call := call' } (s.db.work x) (s.db.saves x)) :
    (s.setCall x call').Inv := by
  subst hc
  exact hi.own (u := { s.callers x with call := call' }) .refl rfl
    ((hi.callers x).turned hview hlocked hinner hentry) rfl rfl

/-- A write to nothing that is counted. -/
theorem CallerInv.unkeyed {u : WorkflowCaller} {o : WorkflowWrite} (hx : CallerInv db u x)
    (ho : o.key = none)
    (hentry : EntryOk u (db.work x ++ [o]) (db.saves x)) (hsteady : u.call.failing = false) :
    CallerInv (db.write x o) u x := by
  refine hx.wrote (by simp [ho]) (by simp [Opens, ho]) ?_ hx.locked rfl hentry
  exact (hx.view hsteady).of_counted fun w => counted_unkeyed ho

/-- The edges of a node, one after the other. -/
theorem CallerInv.edges {u : WorkflowCaller} (hx : CallerInv db u x)
    (hsteady : u.call.failing = false) (hentry : ∀ work, EntryOk u work (db.saves x))
    (edges : List AddedEdge) :
    CallerInv (edges.foldl (fun db e => db.write x (.edge e)) db) u x ∧
      Ledger.Spares x db (edges.foldl (fun db e => db.write x (.edge e)) db) ∧
      (edges.foldl (fun db e => db.write x (.edge e)) db).committed = db.committed := by
  induction edges generalizing db with
  | nil => exact ⟨hx, .refl, rfl⟩
  | cons e edges ih =>
    have hwrote : CallerInv (db.write x (.edge e)) u x := hx.unkeyed rfl (hentry _) hsteady
    obtain ⟨hlast, hspares, hcommitted⟩ := ih hwrote hentry
    exact ⟨hlast, Ledger.spares_write.trans hspares, hcommitted⟩

theorem stepCall_inv (hi : s.Inv) (h : s.stepCall a = some s') : s'.Inv := by
  cases a with
  | takeForAdd x =>
    simp only [stepCall] at h
    split at h
    · next c i hc =>
      obtain ⟨hfree, h⟩ := Option.ite_none_right_eq_some.mp h
      obtain ⟨hview, -, hentry⟩ := hi.calling hc
      have hx := hi.callers x
      have hspares := Ledger.spares_lock hfree
      have hinner : (s.callers x).call.inner = 0 := by rw [hc]; rfl
      split at h
      · next f hf =>
        split_ifs at h with ho
        · obtain rfl := Option.some.inj h
          refine hi.own (u := { s.callers x with call := .adding c i .taken })
            (hspares.trans Ledger.spares_write) rfl
            (hx.lock.wrote ?_ ?_ ?_ ?_ hinner.symm ?_) rfl rfl
          · intro v hv
            obtain rfl := Option.some.inj hv
            exact Function.update_self ..
          · intro v hv
            obtain rfl := Option.some.inj hv
            exact hx.opened hf ho
          · exact (hview rfl).take hf ho
          · intro v hv
            obtain rfl := Option.some.inj hv
            exact Function.update_self ..
          · exact hentry
        · obtain rfl := Option.some.inj h
          exact hi.own (u := { s.callers x with call := .adding c i .failing }) hspares rfl
            (hx.lock.turned (fun h => by cases h) (fun _ h => by cases h) hinner.symm hentry)
            rfl rfl
      · obtain rfl := Option.some.inj h
        exact hi.turned hc (fun h => by cases h) (fun _ h => by cases h) rfl hentry
    · cases h
  | enqueue x task =>
    simp only [stepCall] at h
    split at h
    · next c i hc =>
      obtain ⟨-, h⟩ := Option.ite_none_right_eq_some.mp h
      obtain rfl := Option.some.inj h
      obtain ⟨hview, hlocked, hentry⟩ := hi.calling hc
      have hinner : (s.callers x).call.inner = 0 := by rw [hc]; rfl
      refine hi.own (u := { s.callers x with call := .adding c i (.enqueued task) })
        Ledger.spares_write rfl ((hi.callers x).wrote ?_ ?_ ?_ hlocked hinner.symm hentry) rfl rfl
      · exact fun v hv => by cases hv
      · exact fun v hv => by cases hv
      · exact (hview rfl).of_counted fun v => counted_unkeyed rfl
    · cases h
  | resolveDependencies x =>
    simp only [stepCall] at h
    split at h
    · next c i task hc =>
      obtain ⟨hview, hlocked, hentry⟩ := hi.calling hc
      split at h
      · obtain rfl := Option.some.inj h
        exact hi.turned hc hview hlocked rfl hentry
      · obtain rfl := Option.some.inj h
        exact hi.turned hc (fun h => by cases h) (fun _ h => by cases h) rfl hentry
    · cases h
  | readSucceeded x =>
    simp only [stepCall] at h
    split at h
    · next c i task upstream hc =>
      obtain ⟨hview, hlocked, hentry⟩ := hi.calling hc
      obtain rfl := Option.some.inj h
      exact hi.turned hc hview hlocked rfl hentry
    · cases h
  | enterInsert x =>
    simp only [stepCall] at h
    split at h
    · next c i task upstream succeeded hc =>
      obtain ⟨hview, hlocked, hentry⟩ := hi.calling hc
      obtain rfl := Option.some.inj h
      have hinner : (s.callers x).call.inner = 0 := by rw [hc]; rfl
      refine hi.own
        (u := { s.callers x with call := .adding c i (.inserting task upstream succeeded) })
        Ledger.spares_save rfl ((hi.callers x).save hview hlocked (.inl ?_) hentry) rfl rfl
      rw [hinner]
      rfl
    · cases h
  | insertNode x =>
    simp only [stepCall] at h
    split at h
    · next c i task upstream succeeded hc =>
      obtain ⟨-, h⟩ := Option.ite_none_right_eq_some.mp h
      obtain rfl := Option.some.inj h
      obtain ⟨hview, hlocked, hentry⟩ := hi.calling hc
      have hx := hi.callers x
      have hinner : (s.callers x).call.inner = 1 := by rw [hc]; rfl
      have hfits : (s.view x).Fits (some c.workflow) := hview rfl
      obtain ⟨f, hf, ho, -, -⟩ := hfits.owed
      refine hi.own (u := { s.callers x with call := .adding c i (.noded task upstream succeeded) })
        Ledger.spares_write rfl
        (hx.wrote ?_ ?_ ?_ (fun _ h => by cases h) hinner.symm hentry) rfl rfl
      · intro v hv
        obtain rfl := Option.some.inj hv
        exact hlocked _ rfl
      · intro v hv
        obtain rfl := Option.some.inj hv
        exact hx.opened hf ho
      · exact hfits.node
    · cases h
  | insertEdges x =>
    simp only [stepCall] at h
    split at h
    · next c i task upstream succeeded hc =>
      obtain ⟨-, h⟩ := Option.ite_none_right_eq_some.mp h
      obtain rfl := Option.some.inj h
      obtain ⟨-, -, hentry⟩ := hi.calling hc
      have hsame : (s.callers x).call.inner = 1 := by rw [hc]; rfl
      have hx : CallerInv s.db
          { s.callers x with call := .adding c i (.edged task upstream succeeded) } x := by
        have hview := (hi.callers x).view
        rw [hc] at hview
        exact (hi.callers x).turned hview (fun _ h => by cases h) hsame.symm hentry
      obtain ⟨hlast, hspares, hcommitted⟩ :=
        hx.edges rfl (fun _ => hentry) (edgesOf c.workflow task upstream succeeded)
      exact hi.own hspares hcommitted hlast rfl rfl
    · cases h
  | leaveInsert x =>
    simp only [stepCall] at h
    split at h
    · next c i task upstream succeeded hc =>
      obtain rfl := Option.some.inj h
      obtain ⟨hview, -, hentry⟩ := hi.calling hc
      have hinner : (s.callers x).call.inner = 1 := by rw [hc]; rfl
      refine hi.own
        (u := { s.callers x with call := .adding c i (.inserted task upstream succeeded) })
        Ledger.spares_forget rfl
        ((hi.callers x).forget hview rfl rfl (by omega) ?_) rfl rfl
      unfold EntryOk at hentry ⊢
      rw [← List.drop_one]
      exact hentry
    · cases h
  | releaseAddedNode x =>
    simp only [stepCall] at h
    split at h
    · next c i task upstream succeeded hc =>
      obtain ⟨hview, -, hentry⟩ := hi.calling hc
      have hinner : (s.callers x).call.inner = 0 := by rw [hc]; rfl
      split_ifs at h
      · obtain rfl := Option.some.inj h
        refine hi.own (u := { s.callers x with call := .adding c i (.added task) })
          Ledger.spares_write rfl
          ((hi.callers x).wrote (fun _ h => by cases h) (fun _ h => by cases h) ?_
            (fun _ h => by cases h) hinner.symm hentry) rfl rfl
        exact (hview rfl).of_counted fun v => counted_unkeyed rfl
      · obtain rfl := Option.some.inj h
        exact hi.turned hc hview (fun _ h => by cases h) rfl hentry
    · cases h
  | sealRow x =>
    simp only [stepCall] at h
    split at h
    · next w i hc =>
      obtain ⟨hfree, h⟩ := Option.ite_none_right_eq_some.mp h
      obtain ⟨hview, -, hentry⟩ := hi.calling hc
      have hx := hi.callers x
      have hinner : (s.callers x).call.inner = 0 := by rw [hc]; rfl
      split at h
      · next f hf =>
        split_ifs at h with ho
        · obtain rfl := Option.some.inj h
          obtain ⟨hretired, hcount⟩ := (hview rfl).opened hf ho
          refine hi.own (u := { s.callers x with call := .sealing w i .done })
            ((Ledger.spares_lock hfree).trans Ledger.spares_write) rfl
            (hx.lock.wrote ?_ ?_ ?_ (fun _ h => by cases h) hinner.symm ?_) rfl rfl
          · intro v hv
            obtain rfl := Option.some.inj hv
            exact Function.update_self ..
          · intro v hv
            obtain rfl := Option.some.inj hv
            exact hx.opened hf ho
          · exact (hview rfl).row ⟨fun _ => hcount, fun h => (by cases h), fun _ => rfl⟩
          · exact hentry
        · obtain rfl := Option.some.inj h
          exact hi.turned hc (fun h => by cases h) (fun _ h => by cases h) rfl hentry
      · obtain rfl := Option.some.inj h
        exact hi.turned hc (fun h => by cases h) (fun _ h => by cases h) rfl hentry
    · cases h
  | _ => cases h

end AddState

end DjangoOx
