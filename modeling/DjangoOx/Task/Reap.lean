import Mathlib.Data.Int.Order.Basic
import DjangoOx.Machine.Table
import DjangoOx.Task.Fencing

/-! Reap passes over the table: each statement of a pass is a step of its own, and between two of
them anything may happen to the rows. -/
namespace DjangoOx

open Machine

/-- What the manifest read keeps of a row. -/
structure ManifestEntry where
  taskId : TaskId
  taskPath : String
  queueName : String
  attempts : ℕ
  heldBy : Option String
  deriving DecidableEq, Repr

/-- The next statement of a pass. -/
inductive Stage
  | readManifest
  | requeue (manifest : List ManifestEntry)
  | readExhausted
  | abandon (todo : List (TaskId × OxTask))

structure Pass where
  lockTimeout : ℤ
  reapBatch : ℕ
  /-- The process clock when the pass built its predicates. -/
  started : ℤ
  stage : Stage

/-- What a pass logs as `task_reclaimed`. -/
inductive ReclaimRecord
  | named (manifest : List ManifestEntry)
  | counted (requeued : ℕ)
  | lost (id : TaskId) (heldBy : Option String)
  deriving DecidableEq, Repr

structure Fleet where
  table : Table TaskId RowState
  dbClock : ℤ
  /-- The clock of each process. -/
  clock : ℕ → ℤ
  passes : ℕ → Option Pass
  log : List ReclaimRecord

inductive FleetAction
  /-- A claim, a renewal, an outcome or any other step on one row. -/
  | row (id : TaskId) (a : RowAction)
  | tickDb (now : ℤ)
  | tick (p : ℕ) (now : ℤ)
  | reap (p : ℕ) (lockTimeout : ℤ) (reapBatch : ℕ)
  | readManifest (p : ℕ)
  | requeue (p : ℕ)
  | readExhausted (p : ℕ)
  | abandonNext (p : ℕ)

namespace Fleet

/-- `_lease_now()`: the database's clock at the statement, or with `USE_TZ` off the process clock
read when the expression was built. -/
def leaseNow (useTz : Bool) (s : Fleet) (literal : ℤ) : ℤ :=
  if useTz then s.dbClock else literal

def setStage (s : Fleet) (p : ℕ) (pass : Pass) (stage : Stage) : Fleet :=
  { s with passes := Function.update s.passes p (some { pass with stage := stage }) }

def manifestEntry (x : TaskId × RowState) : ManifestEntry :=
  ⟨x.1, x.2.row.taskPath, x.2.row.queueName, x.2.row.attempts, x.2.row.lockedBy⟩

/-- The manifest: stuck rows with attempts left, in id order, at most a batch. -/
def manifest (useTz : Bool) (s : Fleet) (pass : Pass) : List ManifestEntry :=
  let now := s.leaseNow useTz pass.started
  ((s.table.select fun _ r =>
    r.row.Stuck (now - pass.lockTimeout) now ∧ r.row.attempts < r.row.maxAttempts).take
      pass.reapBatch).map manifestEntry

/-- The requeue UPDATE, pinned to the ids of the manifest. -/
def requeueRow (useTz : Bool) (s : Fleet) (pass : Pass) (m : List ManifestEntry) (id : TaskId)
    (r : RowState) : Option RowState :=
  let now := s.leaseNow useTz pass.started
  if id ∈ m.map (·.taskId) then
    (r.row.requeueAbandoned (now - pass.lockTimeout) now).map (r.commit .requeued)
  else none

/-- The exhausted rows: stuck, with no attempts left, in id order, at most a batch. -/
def exhausted (useTz : Bool) (s : Fleet) (pass : Pass) : List (TaskId × OxTask) :=
  let now := s.leaseNow useTz pass.started
  ((s.table.select fun _ r =>
    r.row.Stuck (now - pass.lockTimeout) now ∧ r.row.maxAttempts ≤ r.row.attempts).take
      pass.reapBatch).map fun x => (x.1, x.2.row)

/-- The UPDATE for one exhausted row: the cutoff is the pass's, the predicate is rebuilt. -/
def abandonRow (useTz : Bool) (s : Fleet) (p : ℕ) (pass : Pass) (id : TaskId) (candidate : OxTask)
    (k : TaskId) (r : RowState) : Option RowState :=
  if k = id then
    (r.row.abandonExhausted (s.leaseNow useTz pass.started - pass.lockTimeout)
      (s.leaseNow useTz (s.clock p)) (s.clock p) candidate).map (r.commit .lost)
  else none

/-- The record of a requeue: the manifest when every row of it was taken, else the number. -/
def requeueLog (m : List ManifestEntry) (requeued : ℕ) : List ReclaimRecord :=
  if requeued = 0 then []
  else if requeued = m.length then [.named m]
  else [.counted requeued]

def step (useTz : Bool) (s : Fleet) : FleetAction → Option Fleet
  | .row id a =>
    (s.table.rows id).bind fun r => (r.step a).map fun r' =>
      { s with table := s.table.update fun k _ => if k = id then some r' else none }
  | .tickDb now => if s.dbClock ≤ now then some { s with dbClock := now } else none
  | .tick p now =>
    if s.clock p ≤ now then some { s with clock := Function.update s.clock p now } else none
  | .reap p lockTimeout reapBatch =>
    match s.passes p with
    | none => some (s.setStage p ⟨lockTimeout, reapBatch, s.clock p, .readManifest⟩ .readManifest)
    | some _ => none
  | .readManifest p =>
    match s.passes p with
    | some pass =>
      match pass.stage with
      | .readManifest =>
        if s.manifest useTz pass = [] then some (s.setStage p pass .readExhausted)
        else some (s.setStage p pass (.requeue (s.manifest useTz pass)))
      | _ => none
    | none => none
  | .requeue p =>
    match s.passes p with
    | some pass =>
      match pass.stage with
      | .requeue m =>
        let f := s.requeueRow useTz pass m
        some { s.setStage p pass .readExhausted with
          table := s.table.update f
          log := requeueLog m (s.table.changed f).length ++ s.log }
      | _ => none
    | none => none
  | .readExhausted p =>
    match s.passes p with
    | some pass =>
      match pass.stage with
      | .readExhausted => some (s.setStage p pass (.abandon (s.exhausted useTz pass)))
      | _ => none
    | none => none
  | .abandonNext p =>
    match s.passes p with
    | some pass =>
      match pass.stage with
      | .abandon [] => some { s with passes := Function.update s.passes p none }
      | .abandon ((id, candidate) :: todo) =>
        let f := s.abandonRow useTz p pass id candidate
        some { s.setStage p pass (.abandon todo) with
          table := s.table.update f
          log := (if s.table.changed f = [] then [] else [.lost id candidate.lockedBy]) ++ s.log }
      | _ => none
    | none => none

/-- No pass yet, over any table of rows with a history. -/
def Start (s : Fleet) : Prop :=
  (∀ id r, s.table.rows id = some r → rowSystem.Reachable r) ∧ (∀ p, s.passes p = none) ∧
    s.log = []

/-- The rows a step changed. -/
def changedRows (s s' : Fleet) : List TaskId :=
  s.table.keys.filter fun id => (s.table.rows id).map (·.row) ≠ (s'.table.rows id).map (·.row)

end Fleet

def fleetSystem (useTz : Bool) : System Fleet FleetAction where
  init := Fleet.Start
  step := Fleet.step useTz

namespace Fleet

/-- What a run keeps of a pass: its clock reading is not ahead of its process, its manifest names
some rows, each once, and the rows it read as exhausted are still exhausted at the epoch they had. -/
structure PassInv (s : Fleet) (p : ℕ) (pass : Pass) : Prop where
  started : pass.started ≤ s.clock p
  manifest : ∀ m, pass.stage = .requeue m → m ≠ [] ∧ (m.map (·.taskId)).Nodup
  todo : ∀ todo, pass.stage = .abandon todo → ∀ x ∈ todo, x.2.maxAttempts ≤ x.2.attempts ∧
    ∃ r, s.table.rows x.1 = some r ∧ x.2.Before r.row

def Inv (s : Fleet) : Prop := ∀ p pass, s.passes p = some pass → s.PassInv p pass

/-- Every row of `s` is in `s'`, the same or later. -/
def Grows (s s' : Fleet) : Prop :=
  ∀ id r, s.table.rows id = some r → ∃ r', s'.table.rows id = some r' ∧ r.row.Before r'.row

theorem PassInv.mono {s s' : Fleet} {p : ℕ} {pass : Pass} (h : s.PassInv p pass)
    (hg : s.Grows s') (hc : s.clock p ≤ s'.clock p) : s'.PassInv p pass := by
  have hst : pass.started ≤ s'.clock p := by have := h.started; omega
  refine ⟨hst, h.manifest, fun todo ht x hx => ?_⟩
  obtain ⟨hle, r, hr, hb⟩ := h.todo todo ht x hx
  obtain ⟨r', hr', hb'⟩ := hg _ _ hr
  exact ⟨hle, r', hr', hb.trans hb'⟩

/-- An UPDATE whose matched rows are later versions makes the table grow. -/
theorem grows_update {s : Fleet} {f : TaskId → RowState → Option RowState}
    (hf : ∀ id r r', s.table.rows id = some r → f id r = some r' → r.row.Before r'.row)
    (s' : Fleet) (hs : s'.table = s.table.update f) : s.Grows s' := by
  intro id r hr
  refine ⟨(f id r).getD r, by simp [hs, hr], ?_⟩
  cases h : f id r with
  | none => exact .refl _
  | some r' => exact hf id r r' hr h

theorem requeueRow_eq_some {useTz : Bool} {s : Fleet} {pass : Pass} {m : List ManifestEntry}
    {id : TaskId} {r r' : RowState} :
    s.requeueRow useTz pass m id r = some r' ↔
      id ∈ m.map (·.taskId) ∧
      (r.row.Stuck (s.leaseNow useTz pass.started - pass.lockTimeout)
          (s.leaseNow useTz pass.started) ∧ r.row.attempts < r.row.maxAttempts) ∧
      r.commit .requeued r.row.requeued = r' := by
  simp only [requeueRow, Option.ite_none_right_eq_some, Option.map_eq_some_iff,
    OxTask.requeueAbandoned_eq_some]
  grind

theorem abandonRow_eq_some {useTz : Bool} {s : Fleet} {p : ℕ} {pass : Pass} {id k : TaskId}
    {c : OxTask} {r r' : RowState} :
    s.abandonRow useTz p pass id c k r = some r' ↔
      k = id ∧
      (r.row.Abandoned (s.leaseNow useTz pass.started - pass.lockTimeout)
          (s.leaseNow useTz (s.clock p)) ∧ r.row.status = .running ∧
        r.row.leaseEpoch = c.leaseEpoch) ∧
      r.commit .lost (r.row.markLost (s.clock p) c) = r' := by
  simp only [abandonRow, Option.ite_none_right_eq_some, Option.map_eq_some_iff,
    OxTask.abandonExhausted_eq_some]
  grind

theorem requeueRow_before {useTz : Bool} {s : Fleet} {pass : Pass} {m : List ManifestEntry}
    {id : TaskId} {r r' : RowState} (h : s.requeueRow useTz pass m id r = some r') :
    r.row.Before r'.row := by
  obtain ⟨-, -, rfl⟩ := requeueRow_eq_some.mp h
  exact ⟨Nat.le_succ _, fun he => absurd he (Nat.succ_ne_self _).symm⟩

theorem abandonRow_before {useTz : Bool} {s : Fleet} {p : ℕ} {pass : Pass} {id k : TaskId}
    {c : OxTask} {r r' : RowState} (h : s.abandonRow useTz p pass id c k r = some r') :
    r.row.Before r'.row := by
  obtain ⟨-, -, rfl⟩ := abandonRow_eq_some.mp h
  exact ⟨le_rfl, fun _ => ⟨rfl, rfl⟩⟩

theorem manifest_nodup (useTz : Bool) (s : Fleet) (pass : Pass) :
    ((s.manifest useTz pass).map (·.taskId)).Nodup := by
  unfold manifest
  simp only [List.map_map, List.map_take]
  exact (s.table.select_fst_nodup _).sublist (List.take_sublist _ _)

theorem exhausted_spec {useTz : Bool} {s : Fleet} {pass : Pass} {x : TaskId × OxTask}
    (h : x ∈ s.exhausted useTz pass) :
    x.2.maxAttempts ≤ x.2.attempts ∧ ∃ r, s.table.rows x.1 = some r ∧ x.2.Before r.row := by
  unfold exhausted at h
  obtain ⟨⟨id, r⟩, hmem, rfl⟩ := List.mem_map.mp h
  obtain ⟨hr, -, hle⟩ := Table.mem_select.mp (List.mem_of_mem_take hmem)
  exact ⟨hle, r, hr, .refl _⟩

theorem inv_of_start {s : Fleet} (h : s.Start) : s.Inv := by
  intro p pass hp
  simp [h.2.1 p] at hp

/-- The passes after one pass has gone on to another stage and the rest has only grown. -/
theorem inv_setStage {s s' : Fleet} (hi : s.Inv) {p : ℕ} {pass : Pass} {stage : Stage}
    (hp : s'.passes = Function.update s.passes p (some { pass with stage := stage }))
    (hg : s.Grows s') (hc : ∀ q, s.clock q ≤ s'.clock q)
    (hpass : s'.PassInv p { pass with stage := stage }) : s'.Inv := by
  intro q pass' hq
  rw [hp] at hq
  by_cases hqp : q = p
  · subst hqp
    rw [Function.update_self] at hq
    obtain rfl := Option.some.inj hq
    exact hpass
  · rw [Function.update_of_ne hqp] at hq
    exact (hi q pass' hq).mono hg (hc q)

theorem grows_of_table_eq {s s' : Fleet} (h : s'.table = s.table) : s.Grows s' := by
  intro id r hr
  exact ⟨r, h ▸ hr, .refl _⟩

theorem step_inv {useTz : Bool} {s s' : Fleet} {a : FleetAction} (hi : s.Inv)
    (h : s.step useTz a = some s') : s'.Inv := by
  cases a with
  | row id a =>
    obtain ⟨r, hr, h⟩ := Option.bind_eq_some_iff.mp h
    obtain ⟨r', hr', rfl⟩ := Option.map_eq_some_iff.mp h
    have hg : s.Grows
        { s with table := s.table.update fun k _ => if k = id then some r' else none } := by
      refine grows_update (fun k u u' hu hf => ?_) _ rfl
      obtain ⟨rfl, hku⟩ := Option.ite_none_right_eq_some.mp hf
      obtain rfl := Option.some.inj hku
      obtain rfl := Option.some.inj (hr.symm.trans hu)
      exact RowState.step_before hr'
    intro p pass hp
    exact (hi p pass hp).mono hg le_rfl
  | tickDb now =>
    obtain ⟨-, h⟩ := Option.ite_none_right_eq_some.mp h
    obtain rfl := Option.some.inj h
    intro p pass hp
    exact (hi p pass hp).mono (grows_of_table_eq rfl) le_rfl
  | tick q now =>
    obtain ⟨hle, h⟩ := Option.ite_none_right_eq_some.mp h
    obtain rfl := Option.some.inj h
    intro p pass hp
    refine (hi p pass hp).mono (grows_of_table_eq rfl) ?_
    by_cases hpq : p = q
    · subst hpq
      simpa using hle
    · simp [Function.update_of_ne hpq]
  | reap p lockTimeout reapBatch =>
    simp only [step] at h
    split at h
    · obtain rfl := Option.some.inj h
      refine inv_setStage hi rfl (grows_of_table_eq rfl) (fun _ => le_rfl) ?_
      exact ⟨le_rfl, by simp, by simp⟩
    · exact absurd h (by simp)
  | readManifest p =>
    simp only [step] at h
    split at h
    · next pass hp =>
      split at h
      · next hst =>
        have hpass := hi p pass hp
        split_ifs at h with hm
        · obtain rfl := Option.some.inj h
          refine inv_setStage hi rfl (grows_of_table_eq rfl) (fun _ => le_rfl) ?_
          exact ⟨hpass.started, by simp, by simp⟩
        · obtain rfl := Option.some.inj h
          refine inv_setStage hi rfl (grows_of_table_eq rfl) (fun _ => le_rfl) ?_
          refine ⟨hpass.started, fun m hst' => ?_, by simp⟩
          obtain rfl := Stage.requeue.inj hst'
          exact ⟨hm, manifest_nodup useTz s pass⟩
      · exact absurd h (by simp)
    · exact absurd h (by simp)
  | requeue p =>
    simp only [step] at h
    split at h
    · next pass hp =>
      split at h
      · next m hst =>
        obtain rfl := Option.some.inj h
        refine inv_setStage hi rfl (grows_update (fun _ _ _ _ => requeueRow_before) _ rfl)
          (fun _ => le_rfl) ?_
        exact ⟨(hi p pass hp).started, by simp, by simp⟩
      · exact absurd h (by simp)
    · exact absurd h (by simp)
  | readExhausted p =>
    simp only [step] at h
    split at h
    · next pass hp =>
      split at h
      · next hst =>
        obtain rfl := Option.some.inj h
        refine inv_setStage hi rfl (grows_of_table_eq rfl) (fun _ => le_rfl) ?_
        refine ⟨(hi p pass hp).started, by simp, fun todo htodo x hx => ?_⟩
        obtain rfl := Stage.abandon.inj htodo
        exact exhausted_spec hx
      · exact absurd h (by simp)
    · exact absurd h (by simp)
  | abandonNext p =>
    simp only [step] at h
    split at h
    · next pass hp =>
      split at h
      · obtain rfl := Option.some.inj h
        intro q pass' hq
        by_cases hqp : q = p
        · subst hqp
          simp at hq
        · simp only [Function.update_of_ne hqp] at hq
          exact (hi q pass' hq).mono (grows_of_table_eq rfl) le_rfl
      · next id c todo hst =>
        obtain rfl := Option.some.inj h
        refine inv_setStage hi rfl (grows_update (fun _ _ _ _ => abandonRow_before) _ rfl)
          (fun _ => le_rfl) ?_
        have hpass : s.PassInv p { pass with stage := .abandon todo } := by
          refine ⟨(hi p pass hp).started, by simp, fun todo' ht x hx => ?_⟩
          obtain rfl := Stage.abandon.inj ht
          exact (hi p pass hp).todo _ hst x (List.mem_cons_of_mem _ hx)
        exact hpass.mono (grows_update (fun _ _ _ _ => abandonRow_before) _ rfl) le_rfl
      · exact absurd h (by simp)
    · exact absurd h (by simp)

theorem reachable_inv {useTz : Bool} {s : Fleet} (h : (fleetSystem useTz).Reachable s) : s.Inv :=
  h.invariant Inv (fun _ hs => inv_of_start hs) fun _ _ _ hi hs => step_inv hi hs

theorem leaseNow_mono (useTz : Bool) (s : Fleet) {x y : ℤ} (h : x ≤ y) :
    s.leaseNow useTz x ≤ s.leaseNow useTz y := by
  unfold leaseNow
  split_ifs
  · exact le_rfl
  · exact h

/-- An UPDATE that moves every row it matches changed the rows it counted. -/
theorem changedRows_eq {s s' : Fleet} {f : TaskId → RowState → Option RowState}
    (hs : s'.table = s.table.update f)
    (hne : ∀ id r r', s.table.rows id = some r → f id r = some r' → r'.row ≠ r.row) :
    s.changedRows s' = s.table.changed f := by
  unfold changedRows Table.changed
  refine List.filter_congr fun id _ => ?_
  rw [hs, Table.rows_update]
  cases hr : s.table.rows id with
  | none => rfl
  | some r =>
    cases hf : f id r with
    | none => simp [hf]
    | some r' => simp [hf, (hne id r r' hr hf).symm]

theorem requeueRow_ne {useTz : Bool} {s : Fleet} {pass : Pass} {m : List ManifestEntry}
    {id : TaskId} {r r' : RowState} (h : s.requeueRow useTz pass m id r = some r') :
    r'.row ≠ r.row := by
  obtain ⟨-, ⟨⟨hrun, -⟩, -⟩, rfl⟩ := requeueRow_eq_some.mp h
  intro he
  have hst : r.row.requeued.status = r.row.status := congrArg OxTask.status he
  rw [hrun] at hst
  cases hst

theorem abandonRow_ne {useTz : Bool} {s : Fleet} {p : ℕ} {pass : Pass} {id k : TaskId}
    {c : OxTask} {r r' : RowState} (h : s.abandonRow useTz p pass id c k r = some r') :
    r'.row ≠ r.row := by
  obtain ⟨-, ⟨-, hrun, -⟩, rfl⟩ := abandonRow_eq_some.mp h
  intro he
  have hst : (r.row.markLost (s.clock p) c).status = r.row.status := congrArg OxTask.status he
  rw [hrun] at hst
  cases hst

/-- The requeue statement of a pass. -/
theorem step_requeue {useTz : Bool} {s s' : Fleet} {p : ℕ}
    (h : s.step useTz (.requeue p) = some s') :
    ∃ pass m, s.passes p = some pass ∧ pass.stage = .requeue m ∧
      s'.table = s.table.update (s.requeueRow useTz pass m) ∧
      s.changedRows s' = s.table.changed (s.requeueRow useTz pass m) ∧
      s'.log = requeueLog m (s.changedRows s').length ++ s.log := by
  simp only [step] at h
  split at h
  · next pass hp =>
    split at h
    · next m hst =>
      have hs := Option.some.inj h
      have ht : s'.table = s.table.update (s.requeueRow useTz pass m) := by rw [← hs]
      have hch := changedRows_eq ht fun _ _ _ _ => requeueRow_ne
      exact ⟨pass, m, hp, hst, ht, hch, by rw [hch, ← hs]⟩
    · exact absurd h (by simp)
  · exact absurd h (by simp)

/-- The statement for one exhausted row, or the end of the pass. -/
theorem step_abandonNext {useTz : Bool} {s s' : Fleet} {p : ℕ}
    (h : s.step useTz (.abandonNext p) = some s') :
    ∃ pass, s.passes p = some pass ∧
      (s'.table = s.table ∨ ∃ id c todo, pass.stage = .abandon ((id, c) :: todo) ∧
        s'.table = s.table.update (s.abandonRow useTz p pass id c)) := by
  simp only [step] at h
  split at h
  · next pass hp =>
    split at h
    · obtain rfl := Option.some.inj h
      exact ⟨pass, hp, .inl rfl⟩
    · next id c todo hst =>
      obtain rfl := Option.some.inj h
      exact ⟨pass, hp, .inr ⟨id, c, todo, hst, rfl⟩⟩
    · exact absurd h (by simp)
  · exact absurd h (by simp)

theorem not_mem_changedRows {s s' : Fleet} (h : s'.table = s.table) (id : TaskId) :
    id ∉ s.changedRows s' := by
  simp [changedRows, h]

/-- Whatever a pass moves was stuck by the lease clock at the moment of the statement. -/
theorem leaseGone_of_abandoned {useTz : Bool} {s : Fleet} {p : ℕ} {pass : Pass} {t : OxTask}
    {x : ℤ} (hi : s.PassInv p pass) (hx : x ≤ s.clock p)
    (h : t.Abandoned (s.leaseNow useTz pass.started - pass.lockTimeout) (s.leaseNow useTz x)) :
    t.LeaseGone (s.leaseNow useTz (s.clock p) - pass.lockTimeout)
      (s.leaseNow useTz (s.clock p)) := by
  have hst := s.leaseNow_mono useTz hi.started
  have hnow := s.leaseNow_mono useTz hx
  exact (h.mono (by omega) hnow).leaseGone

end Fleet

/-- Every row a reap statement changes was RUNNING with its lease gone at that moment, a requeue
takes rows with attempts left and a LOST rows without, and a requeue that took as many rows as its
manifest has took exactly the rows it logs. -/
theorem reaper_takes_abandoned {useTz : Bool} {s s' : Fleet} {a : FleetAction} {p : ℕ}
    (hs : (fleetSystem useTz).Reachable s) (h : (fleetSystem useTz).step s a = some s')
    (ha : a = .requeue p ∨ a = .abandonNext p) :
    ∃ pass, s.passes p = some pass ∧
      (∀ id ∈ s.changedRows s', ∃ r r', s.table.rows id = some r ∧
        s'.table.rows id = some r' ∧ r.row.status = .running ∧
        r.row.LeaseGone (s.leaseNow useTz (s.clock p) - pass.lockTimeout)
          (s.leaseNow useTz (s.clock p)) ∧
        (a = .requeue p → r.row.attempts < r.row.maxAttempts ∧ r'.row = r.row.requeued) ∧
        (a = .abandonNext p →
          r.row.maxAttempts ≤ r.row.attempts ∧ ∃ c, r'.row = r.row.markLost (s.clock p) c)) ∧
      ∀ m, a = .requeue p → pass.stage = .requeue m →
        ((s.changedRows s').length = m.length →
          s'.log = .named m :: s.log ∧ (s.changedRows s').Perm (m.map (·.taskId))) ∧
        ((s.changedRows s').length ≠ m.length → ∀ m', .named m' ∈ s'.log → .named m' ∈ s.log) := by
  have hi := Fleet.reachable_inv hs
  rcases ha with rfl | rfl
  · obtain ⟨pass, m, hp, hst, ht, hch, hlog⟩ := Fleet.step_requeue h
    have hpass := hi p pass hp
    obtain ⟨hne, -⟩ := hpass.manifest m hst
    refine ⟨pass, hp, ?_, ?_⟩
    · intro id hid
      rw [hch] at hid
      obtain ⟨r, r', hr, hf⟩ := Table.mem_changed.mp hid
      obtain ⟨-, ⟨⟨hrun, hab⟩, hlt⟩, rfl⟩ := Fleet.requeueRow_eq_some.mp hf
      refine ⟨r, r.commit .requeued r.row.requeued, hr, by simp [ht, hr, hf], hrun,
        Fleet.leaseGone_of_abandoned hpass hpass.started hab, fun _ => ⟨hlt, rfl⟩, by simp⟩
    · intro m' _ hst'
      obtain rfl := Stage.requeue.inj (hst.symm.trans hst')
      constructor
      · intro hlen
        have hpos : m.length ≠ 0 := by simpa using hne
        refine ⟨by simp [hlog, Fleet.requeueLog, hlen, hpos], ?_⟩
        rw [hch] at hlen ⊢
        refine Table.changed_perm (fun k r r' _ hf => (Fleet.requeueRow_eq_some.mp hf).1) ?_
        simpa using hlen
      · intro hlen m' hm'
        rw [hlog, Fleet.requeueLog, if_neg hlen] at hm'
        split_ifs at hm' <;> simpa using hm'
  · obtain ⟨pass, hp, ht⟩ := Fleet.step_abandonNext h
    have hpass := hi p pass hp
    refine ⟨pass, hp, ?_, by simp⟩
    intro id hid
    rcases ht with ht | ⟨k, c, todo, hst, ht⟩
    · exact absurd hid (Fleet.not_mem_changedRows ht id)
    · rw [Fleet.changedRows_eq ht fun _ _ _ _ => Fleet.abandonRow_ne] at hid
      obtain ⟨r, r', hr, hf⟩ := Table.mem_changed.mp hid
      obtain ⟨rfl, ⟨hab, hrun, he⟩, rfl⟩ := Fleet.abandonRow_eq_some.mp hf
      obtain ⟨hle, u, hu, hb⟩ := hpass.todo _ hst _ List.mem_cons_self
      obtain rfl := Option.some.inj (hr.symm.trans hu)
      have hsame := hb.2 he.symm
      refine ⟨r, r.commit .lost (r.row.markLost (s.clock p) c), hr, by simp [ht, hr, hf], hrun,
        Fleet.leaseGone_of_abandoned hpass le_rfl hab, by simp, fun _ => ⟨?_, c, rfl⟩⟩
      rw [hsame.1, hsame.2]
      exact hle

/-- One enqueued row, and no pass yet. -/
def soloFleet : Fleet :=
  ⟨Table.single 1 (enqueuedState 3), 0, fun _ => 0, fun _ => none, []⟩

theorem soloFleet_start : soloFleet.Start := by
  refine ⟨fun id r h => ?_, fun _ => rfl, rfl⟩
  obtain ⟨-, h⟩ := Option.ite_none_right_eq_some.mp h
  exact Option.some.inj h ▸ .init (enqueuedState_fresh 3)

/-- A row claimed for ten units and never renewed, taken by a pass at a hundred. -/
theorem reaper_takes_abandoned_solo :
    ∃ s s', (fleetSystem true).run soloFleet
        [.row 1 (.claimPostgresql (soloWorker "w1") 5 5), .tickDb 100, .reap 7 10 50,
          .readManifest 7] = some s ∧
      (fleetSystem true).step s (.requeue 7) = some s' ∧ s.changedRows s' = [1] ∧
      ∃ r r', s.table.rows 1 = some r ∧ s'.table.rows 1 = some r' ∧ r.row.status = .running ∧
        r.row.attempts < r.row.maxAttempts ∧ r'.row = r.row.requeued := by
  have taken : ∀ s s', (fleetSystem true).run soloFleet
        [.row 1 (.claimPostgresql (soloWorker "w1") 5 5), .tickDb 100, .reap 7 10 50,
          .readManifest 7] = some s →
      (fleetSystem true).step s (.requeue 7) = some s' → 1 ∈ s.changedRows s' →
      ∃ r r', s.table.rows 1 = some r ∧ s'.table.rows 1 = some r' ∧ r.row.status = .running ∧
        r.row.attempts < r.row.maxAttempts ∧ r'.row = r.row.requeued := by
    intro s s' hr h hmem
    obtain ⟨pass, -, hrows, -⟩ :=
      reaper_takes_abandoned (.of_run soloFleet_start hr) h (.inl rfl)
    obtain ⟨r, r', h₁, h₂, hrun, -, hreq, -⟩ := hrows 1 hmem
    exact ⟨r, r', h₁, h₂, hrun, (hreq rfl).1, (hreq rfl).2⟩
  refine ⟨_, _, rfl, rfl, ?_, taken _ _ rfl rfl ?_⟩
  · decide
  · decide

end DjangoOx
