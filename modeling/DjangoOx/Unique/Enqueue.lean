import DjangoOx.Machine.Run
import DjangoOx.Machine.Store
import DjangoOx.Task.Pending

/-! Unique enqueues of one key, statement by statement, in transactions of their own or inside
callers', beside whatever else happens to the key's tasks and its lock row. -/
namespace DjangoOx

open Machine

/-- `MAX_UNIQUE_ATTEMPTS` -/
def maxUniqueAttempts : ℕ := 5

/-- How far a transaction's `_enqueue_unique` is. `passes` counts the passes left, this one
included; `held` says the transaction had released the lock row before its INSERT. -/
inductive UniqueCall
  | idle
  | inserting (passes : ℕ)
  /-- The lock row is in, its task NULL. -/
  | locked (passes : ℕ) (held : Bool)
  | tasked (passes : ℕ) (held : Bool) (task : TaskId)
  /-- The lock row names the task. -/
  | named (passes : ℕ) (held : Bool) (task : TaskId)
  /-- The INSERT met the key. -/
  | conflicted (passes : ℕ)
  | lockRead (passes : ℕ) (gen : Option TaskId)
  /-- The plain read found the holder settled. -/
  | settled (passes : ℕ) (task : TaskId)
  /-- The lock row is to be released. -/
  | stale (passes : ℕ) (gen : Option TaskId)
  /-- The DELETE has started, on what was committed then. -/
  | releasing (passes : ℕ) (gen : Option TaskId) (hit : Bool)
  | returned (task : TaskId) (existing : Bool)
  | raised
  deriving DecidableEq, Repr

/-- The passes left of an enqueue in progress. -/
def UniqueCall.progress : UniqueCall → Option ℕ
  | .inserting n | .locked n _ | .tasked n _ _ | .named n _ _ | .conflicted n | .lockRead n _
  | .settled n _ | .stale n _ | .releasing n _ _ => some n
  | .idle | .returned _ _ | .raised => none

structure UniqueState where
  /-- The lock row of the key: the task it names, NULL while it is being inserted. -/
  locks : Store Unit (Option TaskId) ℕ
  /-- The task rows of the key. -/
  tasks : Store TaskId RowState ℕ
  calls : ℕ → UniqueCall
  /-- Inside a caller's transaction. -/
  ambient : ℕ → Bool
  /-- The lock row a running `oxpull_prune` DELETE found stale when it started. -/
  prunes : ℕ → Option (Option TaskId)
  /-- The task ids that were given out. -/
  used : List TaskId
  /-- The task ids that committed. -/
  born : List TaskId
  /-- The tasks that enqueues returned as new. -/
  returned : List TaskId

inductive UniqueAction
  | openTxn (txn : ℕ)
  | commitTxn (txn : ℕ)
  | rollbackTxn (txn : ℕ)
  | begin (txn : ℕ)
  | insertLock (txn : ℕ)
  | insertTask (txn : ℕ) (task : TaskId) (call : Call) (inherited : ℕ) (enqueuedAt : ℤ)
  | nameLock (txn : ℕ)
  | finish (txn : ℕ)
  | readLock (txn : ℕ)
  | readHolder (txn : ℕ)
  | lockHolder (txn : ℕ)
  | release (txn : ℕ)
  | applyRelease (txn : ℕ)
  /-- Any error but a deadlock: the statement's savepoint, or the call's own transaction, rolls
  back. -/
  | fail (txn : ℕ)
  /-- The server rolls the whole transaction back. -/
  | deadlock (txn : ℕ)
  /-- Another transaction's write of a task row. -/
  | row (task : TaskId) (a : RowAction)
  /-- `ox_prune` deletes a settled task row. -/
  | pruneTask (task : TaskId)
  /-- The DELETE of `oxpull_prune`, in a database with a single writer. -/
  | prune
  | startPrune (prune : ℕ)
  | applyPrune (prune : ℕ)

namespace UniqueState

def setCall (s : UniqueState) (x : ℕ) (c : UniqueCall) : UniqueState :=
  { s with calls := Function.update s.calls x c }

section setCall

variable (s : UniqueState) (x : ℕ) (c : UniqueCall)

theorem calls_setCall (y : ℕ) :
    (s.setCall x c).calls y = if y = x then c else s.calls y := by
  simp [setCall, Function.update_apply]

@[simp] theorem calls_setCall_self : (s.setCall x c).calls x = c := by simp [setCall]
@[simp] theorem locks_setCall : (s.setCall x c).locks = s.locks := rfl
@[simp] theorem tasks_setCall : (s.setCall x c).tasks = s.tasks := rfl
@[simp] theorem used_setCall : (s.setCall x c).used = s.used := rfl
@[simp] theorem born_setCall : (s.setCall x c).born = s.born := rfl
@[simp] theorem returned_setCall : (s.setCall x c).returned = s.returned := rfl

end setCall

/-- The transaction commits. -/
def commit (s : UniqueState) (x : ℕ) : UniqueState :=
  { s with
    locks := s.locks.commit x
    tasks := s.tasks.commit x
    born := (s.used.filter fun t => s.tasks.holder t = some x) ++ s.born }

def rollback (s : UniqueState) (x : ℕ) : UniqueState :=
  { s with locks := s.locks.rollback x, tasks := s.tasks.rollback x }

/-- The end of an atomic block: the commit, when the call owns its transactions. -/
def endAtomic (s : UniqueState) (x : ℕ) : UniqueState :=
  if s.ambient x then s else s.commit x

/-- The next pass, or UniqueEnqueueRace. -/
def nextPass (s : UniqueState) (x passes : ℕ) : UniqueState :=
  s.setCall x (if passes ≤ 1 then .raised else .inserting (passes - 1))

/-- No task the lock row names is READY or RUNNING, as the transaction sees it. -/
def Settled (s : UniqueState) (x : ℕ) (gen : Option TaskId) : Prop :=
  ∀ t ∈ gen, ∀ r ∈ s.tasks.view x t, ¬ r.row.Pending

instance (s : UniqueState) (x : ℕ) (gen : Option TaskId) : Decidable (s.Settled x gen) :=
  inferInstanceAs (Decidable (∀ t ∈ gen, ∀ r ∈ s.tasks.view x t, ¬ r.row.Pending))

/-- The same, of what is committed. -/
def Stale (s : UniqueState) (gen : Option TaskId) : Prop :=
  ∀ t ∈ gen, ∀ r ∈ s.tasks.committed t, ¬ r.row.Pending

instance (s : UniqueState) (gen : Option TaskId) : Decidable (s.Stale gen) :=
  inferInstanceAs (Decidable (∀ t ∈ gen, ∀ r ∈ s.tasks.committed t, ¬ r.row.Pending))

/-- The lock row back to what it was before the INSERT of this pass. -/
def undoLock (s : UniqueState) (x : ℕ) (held : Bool) : UniqueState :=
  { s with locks := if held then s.locks.write x () none else s.locks.unlock () }

/-- The rollback to the savepoint of the call's statement. -/
def undo (s : UniqueState) (x : ℕ) : UniqueState :=
  match s.calls x with
  | .locked _ held => s.undoLock x held
  | .tasked _ held t | .named _ held t => { s.undoLock x held with tasks := s.tasks.unlock t }
  | .stale _ (some t) | .releasing _ (some t) _ =>
    if s.tasks.holder t = some x then { s with tasks := s.tasks.unlock t } else s
  | _ => s

/-- The release of the lock row that was inspected, then the end of its block and of the pass. -/
def deleteLock (s : UniqueState) (x passes : ℕ) (gen : Option TaskId) (hit : Bool) : UniqueState :=
  let s := if hit = true ∧ s.locks.view x () = some gen then
      { s with locks := s.locks.write x () none }
    else s
  (s.endAtomic x).nextPass x passes

/-- Nothing but one transaction writes at a time where the database has no row locks. -/
def Writable (rowLocks : Bool) (s : UniqueState) : Prop :=
  rowLocks = true ∨ s.locks.holder () = none

instance (rowLocks : Bool) (s : UniqueState) : Decidable (s.Writable rowLocks) :=
  inferInstanceAs (Decidable (_ ∨ _))

def step (rowLocks : Bool) (s : UniqueState) : UniqueAction → Option UniqueState
  | .openTxn x =>
    if s.ambient x = false ∧ (s.calls x).progress = none then
      some { s with ambient := Function.update s.ambient x true }
    else none
  | .commitTxn x =>
    if s.ambient x = true ∧ (s.calls x).progress = none then
      some { s.commit x with ambient := Function.update s.ambient x false }
    else none
  | .rollbackTxn x =>
    if s.ambient x = true ∧ (s.calls x).progress = none then
      some { s.rollback x with ambient := Function.update s.ambient x false }
    else none
  | .begin x =>
    if (s.calls x).progress = none then some (s.setCall x (.inserting maxUniqueAttempts)) else none
  | .insertLock x =>
    match s.calls x with
    | .inserting n =>
      if s.locks.Free x () then
        if (s.locks.view x ()).isSome then some (s.setCall x (.conflicted n))
        else some { s.setCall x (.locked n (s.locks.holder () = some x)) with
          locks := s.locks.write x () (some none) }
      else none
    | _ => none
  | .insertTask x t call inherited enqueuedAt =>
    match s.calls x with
    | .locked n held =>
      if t ∉ s.used then
        some { s.setCall x (.tasked n held t) with
          tasks := s.tasks.write x t (some ⟨DjangoOx.row call inherited enqueuedAt, [], [], [], []⟩)
          used := t :: s.used }
      else none
    | _ => none
  | .nameLock x =>
    match s.calls x with
    | .tasked n held t =>
      some { s.setCall x (.named n held t) with
        locks := if s.locks.view x () = some none then s.locks.write x () (some (some t))
          else s.locks }
    | _ => none
  | .finish x =>
    match s.calls x with
    | .named _ _ t =>
      some ({ s.setCall x (.returned t false) with returned := t :: s.returned }.endAtomic x)
    | _ => none
  | .readLock x =>
    match s.calls x with
    | .conflicted n =>
      match s.locks.view x () with
      | none => some ((s.endAtomic x).nextPass x n)
      | some gen => some (s.setCall x (.lockRead n gen))
    | _ => none
  | .readHolder x =>
    match s.calls x with
    | .lockRead n none => some (s.setCall x (.stale n none))
    | .lockRead n (some t) =>
      match s.tasks.view x t with
      | none => some (s.setCall x (.stale n (some t)))
      | some r =>
        if r.row.Pending then some ((s.setCall x (.returned t true)).endAtomic x)
        else if rowLocks then some (s.setCall x (.settled n t))
        else some (s.setCall x (.stale n (some t)))
    | _ => none
  | .lockHolder x =>
    match s.calls x with
    | .settled n t =>
      if s.tasks.Free x t then
        match s.tasks.view x t with
        | none => some (s.setCall x (.stale n (some t)))
        | some r =>
          if r.row.Pending then
            some ({ s.setCall x (.returned t true) with tasks := s.tasks.lock x t }.endAtomic x)
          else some { s.setCall x (.stale n (some t)) with tasks := s.tasks.lock x t }
      else none
    | _ => none
  | .release x =>
    match s.calls x with
    | .stale n gen =>
      let hit := decide (s.locks.view x () = some gen ∧ s.Settled x gen)
      if rowLocks then some (s.setCall x (.releasing n gen hit))
      else if s.locks.Free x () then some (s.deleteLock x n gen hit)
      else none
    | _ => none
  | .applyRelease x =>
    match s.calls x with
    | .releasing n gen hit =>
      if hit = true → s.locks.Free x () then some (s.deleteLock x n gen hit) else none
    | _ => none
  | .fail x =>
    if (s.calls x).progress = none then none
    else some ((if s.ambient x then s.undo x else s.rollback x).setCall x .raised)
  | .deadlock x =>
    match (s.calls x).progress with
    | none => none
    | some n =>
      if s.ambient x then some ((s.rollback x).setCall x .raised)
      else some ((s.rollback x).nextPass x n)
  | .row t a =>
    if a.Ordinary ∧ (a.IsRetry = true → s.locks.committed () = some (some t)) ∧
        s.tasks.holder t = none ∧ s.Writable rowLocks then
      (s.tasks.committed t).bind fun r => (r.step a).map fun r' =>
        { s with tasks := s.tasks.put t (some r') }
    else none
  | .pruneTask t =>
    if s.tasks.holder t = none ∧ s.Writable rowLocks ∧
        (s.tasks.committed t).any fun r => ¬ r.row.Pending ∧ r.row.status ≠ .waiting then
      some { s with tasks := s.tasks.put t none }
    else none
  | .prune =>
    match s.locks.committed () with
    | some gen =>
      if rowLocks = false ∧ s.locks.holder () = none ∧ s.Stale gen then
        some { s with locks := s.locks.put () none }
      else none
    | none => none
  | .startPrune q =>
    match s.locks.committed () with
    | some gen =>
      if rowLocks = true ∧ s.Stale gen then
        some { s with prunes := Function.update s.prunes q (some gen) }
      else none
    | none => none
  | .applyPrune q =>
    match s.prunes q with
    | some gen =>
      if s.locks.holder () = none then
        some { s with
          prunes := Function.update s.prunes q none
          locks := if s.locks.committed () = some gen then s.locks.put () none else s.locks }
      else none
    | none => none

/-- No lock row, no task with the key, no transaction. -/
def Start (s : UniqueState) : Prop :=
  (∀ k, s.locks.committed k = none) ∧ (∀ k, s.locks.holder k = none) ∧
    (∀ t, s.tasks.committed t = none) ∧ (∀ t, s.tasks.holder t = none) ∧
    (∀ x, s.calls x = .idle) ∧ (∀ x, s.ambient x = false) ∧ (∀ q, s.prunes q = none) ∧
    s.used = [] ∧ s.born = [] ∧ s.returned = []

end UniqueState

/-- The machine of a database with row locks, or of one with a single writer and none. -/
def uniqueSystem (rowLocks : Bool) : System UniqueState UniqueAction where
  init := UniqueState.Start
  step := UniqueState.step rowLocks

end DjangoOx
