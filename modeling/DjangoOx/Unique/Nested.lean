import DjangoOx.Unique.Enqueue

/-! Unique enqueues of one key inside one transaction, with the receivers of `task_enqueued` that run
inside them and the savepoints they run in. -/
namespace DjangoOx

/-- READY or RUNNING -/
def Status.Pending (s : Status) : Prop := s = .ready ∨ s = .running

instance : DecidablePred Status.Pending := fun s => inferInstanceAs (Decidable (s = _ ∨ s = _))

/-- What is committed of the key: the task its lock row names, with the status of the task's row, if
there is one. -/
structure CommittedKey where
  holder : Option (ℕ × Option Status)
  deriving DecidableEq, Repr

namespace CommittedKey

def lock (k : CommittedKey) : Option (Option ℕ) := k.holder.map fun h => some h.1

def rows (k : CommittedKey) : List (ℕ × Status) :=
  match k.holder with
  | some (t, some st) => [(t, st)]
  | _ => []

/-- The first task id that is not given out. -/
def next (k : CommittedKey) : ℕ := (k.holder.map fun h => h.1 + 1).getD 0

/-- The key is held. -/
def Held (k : CommittedKey) : Prop := ∃ h ∈ k.holder, ∃ st ∈ h.2, st.Pending

instance (k : CommittedKey) : Decidable k.Held :=
  inferInstanceAs (Decidable (∃ h ∈ k.holder, ∃ st ∈ h.2, Status.Pending st))

end CommittedKey

/-- What a transaction does with the key, and what is committed of it meanwhile. A receiver runs once,
for the task its enqueue creates. -/
inductive KeyScript
  | done
  | enqueue (receiver rest : KeyScript)
  /-- An atomic block, which is a savepoint here. -/
  | atomic (body : KeyScript) (rollsBack : Bool) (rest : KeyScript)
  /-- Others leave the key like this: its holder has moved, settled, was retried or pruned, or the key
  has another holder or none. -/
  | elsewhere (key : CommittedKey) (rest : KeyScript)
  deriving DecidableEq, Repr

/-- The key as the transaction sees it. -/
structure KeyView where
  committed : CommittedKey
  /-- The lock row, once the transaction has written it. It names no task while its task is being
  inserted. -/
  written : Option (Option (Option ℕ))
  /-- The task rows the transaction has inserted. -/
  inserted : List (ℕ × Status)
  /-- The first task id that is not given out. -/
  next : ℕ
  /-- The tasks whose rows went with a savepoint. -/
  rolledBack : List ℕ
  deriving DecidableEq, Repr

/-- Where a call leaves the transaction, and how each statement on the way left it. -/
structure KeyRun where
  final : KeyView
  trace : List KeyView
  deriving DecidableEq, Repr

/-- The READY ones of some task rows. -/
def readyTasks (rows : List (ℕ × Status)) : List ℕ :=
  (rows.filter (·.2 = .ready)).map Prod.fst

namespace KeyView

def lock (s : KeyView) : Option (Option ℕ) := s.written.getD s.committed.lock

/-- The task rows of the key. -/
def rows (s : KeyView) : List (ℕ × Status) := s.committed.rows ++ s.inserted

/-- The READY tasks of the key. -/
def ready (s : KeyView) : List ℕ := readyTasks s.rows

/-- The READY tasks, but for those of rows that went with a savepoint. -/
def readyBut (s : KeyView) (rolledBack : List ℕ) : List ℕ :=
  readyTasks s.committed.rows ++ (readyTasks s.inserted).filter (· ∉ rolledBack)

/-- The holder that the lock row names, while it is pending. -/
def holder (s : KeyView) (gen : Option ℕ) : Option ℕ :=
  gen.filter fun t => s.rows.any fun r => r.1 = t ∧ r.2.Pending

/-- Others commit. Once the transaction has written the key they wait for its locks. -/
def learn (s : KeyView) (key : CommittedKey) : KeyView :=
  if s.written = none then { s with committed := key, next := max s.next key.next } else s

/-- The pass whose INSERT of the lock row goes in. -/
def insertPass (receive : KeyView → KeyRun) (s : KeyView) : KeyRun :=
  let locked := { s with written := some (some none) }
  let tasked := { locked with inserted := s.inserted ++ [(s.next, .ready)], next := s.next + 1 }
  let received := receive tasked
  let named :=
    -- The UPDATE is of a lock row whose task is NULL.
    if received.final.lock = some none then
      { received.final with written := some (some (some s.next)) }
    else received.final
  ⟨named, locked :: tasked :: received.trace ++ [named]⟩

/-- The passes of `_enqueue_unique`. With none left it raises UniqueEnqueueRace. -/
def enqueueUnique (receive : KeyView → KeyRun) : ℕ → KeyView → KeyRun
  | 0, s => ⟨s, []⟩
  | passes + 1, s =>
    match s.lock with
    | none => s.insertPass receive
    | some gen =>
      match s.holder gen with
      | some _ => ⟨s, []⟩
      | none =>
        let released := { s with written := some none }
        let next := enqueueUnique receive passes released
        ⟨next.final, released :: next.trace⟩

/-- The rollback to a savepoint that was set in `s`: what others have committed since stays. -/
def undo (s now : KeyView) : KeyView where
  committed := now.committed
  written := s.written
  inserted := s.inserted
  next := now.next
  rolledBack := now.rolledBack ++
    (now.inserted.map Prod.fst).filter (· ∉ s.inserted.map Prod.fst)

end KeyView

namespace KeyScript

def exec : KeyScript → KeyView → KeyRun
  | done, s => ⟨s, []⟩
  | enqueue receiver rest, s =>
    let first := s.enqueueUnique receiver.exec maxUniqueAttempts
    let next := rest.exec first.final
    ⟨next.final, first.trace ++ next.trace⟩
  | atomic body rollsBack rest, s =>
    let first := body.exec s
    let left := if rollsBack then s.undo first.final else first.final
    let next := rest.exec left
    ⟨next.final, first.trace ++ left :: next.trace⟩
  | elsewhere key rest, s =>
    let left := s.learn key
    let next := rest.exec left
    ⟨next.final, left :: next.trace⟩

/-- The receiver of the first enqueue that finds the key free and that no savepoint takes back, and
what is committed of the key then or, where there is none, in the end. `written` says that the
transaction has written the key before. -/
def first (written : Bool) : KeyScript → CommittedKey → Option KeyScript × CommittedKey
  | done, k => (none, k)
  | enqueue receiver rest, k => if k.Held then rest.first written k else (some receiver, k)
  | atomic body rollsBack rest, k =>
    match body.first written k with
    | (some receiver, k) => if rollsBack then rest.first written k else (some receiver, k)
    | (none, k) => rest.first written k
  | elsewhere key rest, k => rest.first written (if written then k else key)

/-- Some enqueue is in no savepoint that rolls back. -/
def keeps : KeyScript → Bool
  | done => false
  | enqueue _ _ => true
  | atomic body rollsBack rest => !rollsBack && body.keeps || rest.keeps
  | elsewhere _ rest => rest.keeps

end KeyScript

namespace CommittedKey

def view (k : CommittedKey) : KeyView := ⟨k, none, [], k.next, []⟩

/-- At every point at most one READY row, those of savepoints that roll back apart, and at the end
the lock row names it. -/
def StaysUnique (k : CommittedKey) (script : KeyScript) : Prop :=
  let run := script.exec k.view
  (∀ v ∈ run.trace, (v.readyBut run.final.rolledBack).length ≤ 1) ∧
    ∀ t ∈ run.final.ready, run.final.lock = some (some t)

instance (k : CommittedKey) (script : KeyScript) : Decidable (k.StaysUnique script) :=
  inferInstanceAs (Decidable (_ ∧ _))

end CommittedKey

end DjangoOx
