import DjangoOx.Machine.Act
import DjangoOx.Machine.Moves
import DjangoOx.Task.Actions

/-! Deadlocks and serialization failures, and running a transaction again after one. -/
namespace DjangoOx

open Machine

/-- What `is_contention` reads of an exception: the two names of the SQLSTATE, and the first
argument where it is an int. -/
structure ExcInfo where
  sqlstate : Option String
  pgcode : Option String
  arg : Option ℤ
  deriving DecidableEq, Repr

namespace ExcInfo

/-- `getattr(error, "sqlstate", None) or getattr(error, "pgcode", None)` -/
def state (error : ExcInfo) : Option String :=
  if error.sqlstate = none ∨ error.sqlstate = some "" then error.pgcode else error.sqlstate

/-- deadlock_detected and serialization_failure, or ER_LOCK_DEADLOCK -/
def contention (error : ExcInfo) : Bool :=
  decide (error.state ∈ [some "40P01", some "40001"]) || decide (error.arg = some 1213)

end ExcInfo

/-- A `DatabaseError`, and the driver's exception behind it. -/
structure DatabaseError where
  error : ExcInfo
  cause : Option ExcInfo
  deriving DecidableEq, Repr

/-- `is_contention` -/
def DatabaseError.isContention (exc : DatabaseError) : Bool :=
  exc.error.contention || exc.cause.any ExcInfo.contention

/-- The connection a call runs on. -/
structure Connection where
  /-- Autocommit is on and no atomic block is open. -/
  idle : Bool
  hasSelectForUpdate : Bool
  /-- MySQL's vendor and a native uuid column: MariaDB from 10.7 on. -/
  mariadbUuid : Bool

/-- `attempts`, of three in all -/
def Connection.attempts (conn : Connection) : ℕ :=
  if conn.idle then 3 else 1

/-- What the database answers a statement: `none` carries it out. -/
abbrev Answer := Option DatabaseError

/-- The rows as the session's statements see them, and the answers to the statements to come; a
statement past the last of them is carried out. -/
structure Session where
  rows : Table TaskId OxTask
  answers : List Answer

abbrev Db := Act Session DatabaseError

/-- The rows meet `P`, and every answer to come `A`. -/
def Session.At (A : Answer → Prop) (P : Table TaskId OxTask → Prop) (s : Session) : Prop :=
  P s.rows ∧ ∀ a ∈ s.answers, A a

/-- The database answers the next statement. -/
def Db.statement : Db PUnit := do
  let s ← get
  modify fun s => { s with answers := s.answers.tail }
  match s.answers.head? with
  | some (some e) => throw e
  | _ => pure ⟨⟩

/-- `UPDATE .. WHERE pk IN ids`, and the number of rows it matched. -/
def Db.update (ids : List TaskId) (f : TaskId → OxTask → Option OxTask) : Db ℕ := do
  Db.statement
  let s ← get
  modify fun s => { s with rows := s.rows.updateIn ids f }
  return s.rows.matched ids f

/-- `transaction.atomic`: a BEGIN and a COMMIT, or a savepoint and its release, around `body`. An
error of the block, its last statement's included, leaves the rows as they were. -/
def Db.atomic {α : Type} (body : Db α) : Db α := do
  let before ← get
  match ← Act.attempt (do Db.statement; let a ← body; Db.statement; return a) with
  | .ok a => return a
  | .error e =>
    modify fun s => { s with rows := before.rows }
    throw e

/-- `run`: `script` answers each attempt's statements. -/
def Contention.run {α : Type} (conn : Connection) (script : ℕ → List Answer) (body : Db α) : Db α :=
  Act.rerun DatabaseError.isContention
    (fun attempt => do
      modify fun s => { s with answers := script attempt }
      body) (conn.attempts - 1) 1

/-- Contention errors alone, and one of the attempts without any. -/
def Allowed (conn : Connection) (script : ℕ → List Answer) : Prop :=
  ∃ n, 1 ≤ n ∧ n ≤ conn.attempts ∧ (∀ a ∈ script n, a = none) ∧
    ∀ m, 1 ≤ m → m < n → ∀ e, some e ∈ script m → e.isContention = true

/-- From the rows `r` the computation ends in rows that `R` allows with what it returns, or leaves
`r`; it raises only what it is answered. -/
def Transacts {α : Type} (r : Table TaskId OxTask) (R : α → Table TaskId OxTask → Prop)
    (x : Db α) : Prop :=
  ∀ (A : Answer → Prop) (s : Session), s.At A (· = r) →
    x.Holds s (fun a s' => s'.At A (R a)) fun e s' => A (some e) ∧ s'.At A (· = r)

section Rules

variable {α : Type} {s : Session} {A : Answer → Prop} {P : Table TaskId OxTask → Prop}
  {r : Table TaskId OxTask} {R : α → Table TaskId OxTask → Prop} {body : Db α}

/-- A statement changes no row, and raises only what it is answered. -/
theorem holds_statement (h : s.At A P) :
    Act.Holds Db.statement s (fun _ s' => s'.At A P) fun e s' => A (some e) ∧ s'.At A P := by
  obtain ⟨hrows, hall⟩ := h
  have hnext : Session.At A P { s with answers := s.answers.tail } :=
    ⟨hrows, fun a ha => hall a (List.mem_of_mem_tail ha)⟩
  unfold Db.statement
  rw [Act.holds_bind, Act.holds_get, Act.holds_bind, Act.holds_modify]
  rcases hhead : s.answers.head? with _ | _ | e
  · exact hnext
  · exact hnext
  · exact ⟨hall _ (List.mem_of_mem_head? hhead), hnext⟩

theorem transacts_update (r : Table TaskId OxTask) (ids : List TaskId)
    (f : TaskId → OxTask → Option OxTask) :
    Transacts r (fun n r' => n = r.matched ids f ∧ r' = r.updateIn ids f) (Db.update ids f) := by
  intro A s h
  unfold Db.update
  apply (holds_statement h).bind _ fun _ _ he => he
  rintro - s' ⟨hrows, hall⟩
  rw [Act.holds_bind, Act.holds_get, Act.holds_bind, Act.holds_modify, Act.holds_pure, hrows]
  exact ⟨⟨rfl, rfl⟩, hall⟩

/-- Whatever the block leaves when it raises, the rows are put back. -/
theorem transacts_atomic
    (hbody : ∀ (A : Answer → Prop) (s : Session), s.At A (· = r) →
      body.Holds s (fun a s' => s'.At A (R a)) fun e s' => A (some e) ∧ s'.At A fun _ => True) :
    Transacts r R (Db.atomic body) := by
  intro A s h
  have hblock : Act.Holds (do Db.statement; let a ← body; Db.statement; return a) s
      (fun a s' => s'.At A (R a)) fun e s' => A (some e) ∧ s'.At A fun _ => True := by
    have hloose : ∀ (P : Table TaskId OxTask → Prop) (e : DatabaseError) (s' : Session),
        A (some e) ∧ s'.At A P → A (some e) ∧ s'.At A fun _ => True :=
      fun _ _ _ he => ⟨he.1, trivial, he.2.2⟩
    refine (holds_statement h).bind (fun _ s₁ h₁ => ?_) (hloose _)
    refine (hbody A s₁ h₁).bind (fun a s₂ h₂ => ?_) fun _ _ he => he
    exact (holds_statement h₂).bind (fun _ s₃ h₃ => h₃) (hloose _)
  unfold Db.atomic
  rw [Act.holds_bind, Act.holds_get, Act.holds_bind, Act.holds_attempt]
  refine hblock.mono (fun a s' ha => ha) fun e s' he => ?_
  obtain ⟨herror, -, hall⟩ := he
  exact ⟨herror, h.1, hall⟩

/-- However the attempts go, the rows are those of one of them that ended, or untouched. -/
theorem Transacts.run (h : Transacts r R body) (conn : Connection)
    (script : ℕ → List Answer) (hs : s.rows = r) :
    Act.Holds (Contention.run conn script body) s (fun a s' => R a s'.rows)
      fun _ s' => s'.rows = r := by
  have hattempt : ∀ n (s : Session), s.rows = r →
      Act.Holds (do modify fun s => { s with answers := script n }; body) s
        (fun a s' => R a s'.rows) fun _ s' => s'.rows = r := by
    intro n s hs
    rw [Act.holds_bind, Act.holds_modify]
    have hstart : Session.At (fun _ => True) (· = r) { s with answers := script n } :=
      ⟨hs, fun _ _ => trivial⟩
    exact (h _ _ hstart).mono (fun _ _ hq => hq.1) fun _ _ he => he.2.1
  exact Act.Holds.rerun hattempt _ _ hs

/-- Within the allowed attempts the call is not left with an error. -/
theorem Transacts.run_of_allowed (h : Transacts r R body) {conn : Connection}
    {script : ℕ → List Answer} (hallowed : Allowed conn script) (hs : s.rows = r) :
    Act.Holds (Contention.run conn script body) s (fun a s' => R a s'.rows) fun _ _ => False := by
  obtain ⟨n, hone, hn, hquiet, hbefore⟩ := hallowed
  have hlast : ∀ s : Session, s.rows = r →
      Act.Holds (do modify fun s => { s with answers := script n }; body) s
        (fun a s' => R a s'.rows) fun _ _ => False := by
    intro s hs
    rw [Act.holds_bind, Act.holds_modify]
    have hstart : Session.At (fun a => a = none) (· = r) { s with answers := script n } :=
      ⟨hs, hquiet⟩
    exact (h _ _ hstart).mono (fun _ _ hq => hq.1) fun e _ he => Option.some_ne_none e he.1
  have hearlier : ∀ m, 1 ≤ m → m < n → ∀ s : Session, s.rows = r →
      Act.Holds (do modify fun s => { s with answers := script m }; body) s
        (fun a s' => R a s'.rows) fun e s' => e.isContention = true ∧ s'.rows = r := by
    intro m hm hlt s hs
    rw [Act.holds_bind, Act.holds_modify]
    have hstart : Session.At (fun a => ∀ e, a = some e → e.isContention = true) (· = r)
        { s with answers := script m } := by
      refine ⟨hs, ?_⟩
      rintro a ha e rfl
      exact hbefore m hm hlt e ha
    exact (h _ _ hstart).mono (fun _ _ hq => hq.1) fun e _ he => ⟨he.1 e rfl, he.2.1⟩
  exact Act.Holds.rerun_of_le hlast _ _ hearlier hone (by omega) hs

end Rules

end DjangoOx
