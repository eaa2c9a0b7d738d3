import DjangoOx.Task.Fencing

/-! `_write_outcome_reconnecting`: one execution's outcome, tried again across a lost connection
while everybody else goes on moving the row. -/
namespace DjangoOx

open Machine Machine.Fencing

/-- The record an execution computed once, for all of its tries. -/
structure Record where
  backoff : Backoff
  held : OxTask
  now : ℤ
  ending : AttemptEnd

namespace Record

def outcome (r : Record) : Outcome := outcomeOf r.backoff r.held r.now r.ending

/-- The attempt's own record; the stuck-thread one is the watchdog's and keeps its single write. -/
def Own (r : Record) : Prop := ∀ exc, r.ending ≠ .stuck exc

/-- The attempt's own record leaves the epoch alone. -/
theorem Own.leaseEpoch {r : Record} (ho : r.Own) : r.outcome.leaseEpoch = none := by
  unfold Record.outcome
  cases hend : r.ending with
  | returned value => rfl
  | raised exc answer =>
    simp only [outcomeOf, handleFailure]
    split <;> rfl
  | stuck exc => exact absurd hend (ho exc)

end Record

/-- A row that holds its own record's outcome was answered at the record's epoch. -/
theorem RowState.Inv.answered_of_already_written {r : Record} {x : RowState} (hi : x.Inv)
    (ho : r.Own) (hheld : r.held ∈ x.held) (h : x.row.OutcomeAlreadyWritten r.held r.outcome) :
    Event.answered r.held.leaseEpoch ∈ x.log := by
  obtain ⟨hs, he, -⟩ := h
  have hepoch : x.row.leaseEpoch = r.held.leaseEpoch := by simpa [ho.leaseEpoch] using he
  have hw : ¬ x.row.status.Writable := by
    rw [hs]
    exact outcomeOf_not_writable _ _ _ _
  have hd : x.row.status ≠ .discarded := by
    rw [hs]
    exact outcomeOf_not_discarded _ _ _ _
  have hg : x.row.leaseEpoch ∈ RowState.grants x.log := by
    rw [hepoch]
    exact hi.granted _ (List.mem_append_left _ (List.mem_map_of_mem hheld))
  rw [← hepoch]
  exact hi.answered hg hd hw

inductive Phase
  | first
  /-- About to ask whether the row has the outcome, with this many delays left. -/
  | checking (delays : ℕ)
  | writing (delays : ℕ)
  | returned (landed : Bool)
  | raised
  deriving DecidableEq, Repr

/-- A statement answers, or raises, after its commit or without one. -/
inductive TryEnd
  | answers
  | raises (committed : Bool)
  deriving DecidableEq, Repr

def TryEnd.committed : TryEnd → Bool
  | answers => true
  | raises committed => committed

/-- What a later try raises. `refused` is a connect the server refused: no connection was held or
opened. -/
inductive TryError
  | refused
  | database
  | other
  deriving DecidableEq, Repr

structure WriterState where
  shared : RowState
  phase : Phase
  /-- The rows the tries left, latest first. -/
  landed : List OxTask

inductive WriterAction
  /-- Another party's step on the row. -/
  | other (a : RowAction)
  /-- The first try. When it raises, `earned` is `none` for an error that is raised to the
  caller, or the number of delays a refused connect has. -/
  | firstTry (e : TryEnd) (earned : Option ℕ)
  /-- `_outcome_already_written`, and what it raised, if it did. -/
  | check (e : Option TryError)
  /-- A later `_write_outcome`. -/
  | laterTry (e : TryEnd) (err : TryError)

namespace WriterState

/-- Whether a step is somebody else's: any step but a record of this execution's own thread. -/
def Foreign (r : Record) : RowAction → Prop
  | .writeOutcome _ _ _ (.stuck _) => True
  | .writeOutcome _ held _ _ => held.leaseEpoch ≠ r.held.leaseEpoch
  | _ => True

instance (r : Record) : DecidablePred (Foreign r) := fun a =>
  match a with
  | .writeOutcome _ _ _ (.stuck _) => isTrue trivial
  | .writeOutcome _ held _ (.returned _) | .writeOutcome _ held _ (.raised _ _) =>
    inferInstanceAs (Decidable (held.leaseEpoch ≠ r.held.leaseEpoch))
  | .claimPostgresql .. | .claimSkipLocked .. | .claimOptimistic .. | .reloadClaimed _
  | .renewLease .. | .requeue .. | .abandon .. | .retry _ | .retryMany | .discard ..
  | .discardMany _ | .expireLease _ | .release .. | .cancelMany .. | .reviveMany _
  | .releaseClaim .. => isTrue trivial

/-- The write of a try, when it commits. -/
def write (r : Record) (s : WriterState) : Option WriterState :=
  (s.shared.step (.writeOutcome r.backoff r.held r.now r.ending)).map fun t =>
    { s with shared := t, landed := t.row :: s.landed }

/-- A try: its write lands when it commits and matches the row. `after` says where the writer goes
on, given whether it matched. -/
def attempt (r : Record) (s : WriterState) (committed : Bool) (after : Bool → Phase) :
    WriterState :=
  match s.write r with
  | some t => if committed then { t with phase := after true } else { s with phase := after false }
  | none => { s with phase := after false }

/-- What follows an error of a later try. -/
def afterError : ℕ → TryError → Phase
  | n + 1, .refused => .checking n
  | 0, .refused => .returned false
  | _, .database => .returned false
  | _, .other => .raised

def afterFirst (earned : Option ℕ) : TryEnd → Bool → Phase
  | .answers, matched => .returned matched
  | .raises _, _ => earned.elim .raised .checking

def afterLater (n : ℕ) (err : TryError) : TryEnd → Bool → Phase
  | .answers, matched => .returned matched
  | .raises _, _ => afterError n err

def step (r : Record) (s : WriterState) : WriterAction → Option WriterState
  | .other a =>
    if Foreign r a then (s.shared.step a).map fun t => { s with shared := t } else none
  | .firstTry e earned =>
    if s.phase = .first then some (s.attempt r e.committed (afterFirst earned e)) else none
  | .check none =>
    match s.phase with
    | .checking n =>
      if s.shared.row.OutcomeAlreadyWritten r.held r.outcome then
        some { s with phase := .returned true }
      else some { s with phase := .writing n }
    | _ => none
  | .check (some err) =>
    match s.phase with
    | .checking n => some { s with phase := afterError n err }
    | _ => none
  | .laterTry e err =>
    match s.phase with
    | .writing n => some (s.attempt r e.committed (afterLater n err e))
    | _ => none

/-- Before the first try: the execution holds its claim and has recorded nothing. -/
def Start (r : Record) (s : WriterState) : Prop :=
  rowSystem.Reachable s.shared ∧ r.held ∈ s.shared.held ∧
    Event.answered r.held.leaseEpoch ∉ s.shared.log ∧ s.phase = .first ∧ s.landed = []

end WriterState

def writerSystem (r : Record) : System WriterState WriterAction where
  init := WriterState.Start r
  step := WriterState.step r

namespace WriterState

theorem write_eq_some {r : Record} {s t : WriterState} (h : s.write r = some t) :
    ∃ u, s.shared.step (.writeOutcome r.backoff r.held r.now r.ending) = some u ∧
      t = { s with shared := u, landed := u.row :: s.landed } := by
  obtain ⟨u, hu, rfl⟩ := Option.map_eq_some_iff.mp h
  exact ⟨u, hu, rfl⟩

/-- A try either leaves everything as it was or lands its write. -/
theorem attempt_cases (r : Record) (s : WriterState) (committed : Bool) (after : Bool → Phase) :
    s.attempt r committed after = { s with phase := after false } ∨
      ∃ t, s.write r = some t ∧ s.attempt r committed after = { t with phase := after true } := by
  cases hw : s.write r with
  | none => exact .inl (by simp [attempt, hw])
  | some t =>
    cases committed with
    | false => exact .inl (by simp [attempt, hw])
    | true => exact .inr ⟨t, rfl, by simp [attempt, hw]⟩

theorem afterError_ne (n : ℕ) (err : TryError) : afterError n err ≠ .returned true := by
  cases n <;> cases err <;> simp [afterError]

theorem afterFirst_ne (earned : Option ℕ) (e : TryEnd) :
    afterFirst earned e false ≠ .returned true := by
  cases e <;> cases earned <;> simp [afterFirst]

theorem afterLater_ne (n : ℕ) (err : TryError) (e : TryEnd) :
    afterLater n err e false ≠ .returned true := by
  cases e with
  | answers => simp [afterLater]
  | raises committed => exact afterError_ne n err

/-- A step of the writer that leaves the row alone: it says True only after the check's yes. -/
def Turns (r : Record) (s s' : WriterState) : Prop :=
  ∃ p, s' = { s with phase := p } ∧
    (p = .returned true → s.shared.row.OutcomeAlreadyWritten r.held r.outcome)

def Lands (r : Record) (s s' : WriterState) : Prop :=
  ∃ t p, s.write r = some t ∧ s' = { t with phase := p }

/-- Everything a step can do. -/
theorem step_cases {r : Record} {s s' : WriterState} {a : WriterAction} (h : s.step r a = some s') :
    (∃ b t, a = .other b ∧ Foreign r b ∧ s.shared.step b = some t ∧
        s' = { s with shared := t }) ∨
      Lands r s s' ∨ Turns r s s' := by
  cases a with
  | other b =>
    obtain ⟨hf, h⟩ := Option.ite_none_right_eq_some.mp h
    obtain ⟨t, ht, rfl⟩ := Option.map_eq_some_iff.mp h
    exact .inl ⟨b, t, rfl, hf, ht, rfl⟩
  | firstTry e earned =>
    obtain ⟨-, h⟩ := Option.ite_none_right_eq_some.mp h
    obtain rfl := Option.some.inj h
    rcases attempt_cases r s e.committed (afterFirst earned e) with ht | ⟨t, ht, ha⟩
    · exact .inr (.inr ⟨_, ht, fun h => absurd h (afterFirst_ne earned e)⟩)
    · exact .inr (.inl ⟨t, _, ht, ha⟩)
  | check e =>
    cases e with
    | none =>
      simp only [step] at h
      split at h
      · next n _ =>
        split_ifs at h with hw
        · exact .inr (.inr ⟨_, (Option.some.inj h).symm, fun _ => hw⟩)
        · exact .inr (.inr ⟨_, (Option.some.inj h).symm, by simp⟩)
      · exact absurd h (by simp)
    | some err =>
      simp only [step] at h
      split at h
      · next n _ =>
        exact .inr (.inr ⟨_, (Option.some.inj h).symm, fun h => absurd h (afterError_ne n err)⟩)
      · exact absurd h (by simp)
  | laterTry e err =>
    simp only [step] at h
    split at h
    · next n _ =>
      obtain rfl := Option.some.inj h
      rcases attempt_cases r s e.committed (afterLater n err e) with ht | ⟨t, ht, ha⟩
      · exact .inr (.inr ⟨_, ht, fun h => absurd h (afterLater_ne n err e)⟩)
      · exact .inr (.inl ⟨t, _, ht, ha⟩)
    · exact absurd h (by simp)

/-- What a run keeps: the row's own invariants, at most one landed try, and after it an epoch that
no write can match again. -/
structure Inv (r : Record) (s : WriterState) : Prop where
  reachable : rowSystem.Reachable s.shared
  held : r.held ∈ s.shared.held
  once : s.landed.length ≤ 1
  spent : s.landed ≠ [] → Spent r.held.leaseEpoch s.shared.row.fence
  logged : Event.answered r.held.leaseEpoch ∈ s.shared.log → s.landed ≠ []
  seen : ∀ t ∈ s.landed, s.shared.Seen t ∧
    ∃ t₀ : OxTask, t₀.leaseEpoch = r.held.leaseEpoch ∧ t = t₀.setOutcome r.outcome
  recorded : s.phase = .returned true → s.landed ≠ []

theorem inv_of_start {r : Record} {s : WriterState} (h : s.Start r) : s.Inv r := by
  obtain ⟨hr, hh, hl, hp, hd⟩ := h
  exact ⟨hr, hh, by simp [hd], by simp [hd], fun h => absurd h hl, by simp [hd], by simp [hp]⟩

theorem foreign_inv {r : Record} {s : WriterState} {a : RowAction} {t : RowState} (hi : s.Inv r)
    (hf : Foreign r a) (h : s.shared.step a = some t) : Inv r { s with shared := t } := by
  refine ⟨hi.reachable.step h, RowState.step_held h hi.held, hi.once,
    fun hl => RowState.step_spent h (hi.spent hl), ?_, ?_, hi.recorded⟩
  · intro he
    rcases RowState.step_answered h he with he | ⟨b, held, now, ending, rfl, he⟩
    · exact hi.logged he
    · cases ending with
      | stuck exc => cases he
      | returned value => exact absurd (Event.answered.inj he) hf
      | raised exc answer => exact absurd (Event.answered.inj he) hf
  · intro u hu
    exact ⟨RowState.step_seen h (hi.seen u hu).1, (hi.seen u hu).2⟩

theorem lands_inv {r : Record} {s s' : WriterState} (hi : s.Inv r) (h : Lands r s s') :
    s'.Inv r := by
  obtain ⟨t, p, h, rfl⟩ := h
  obtain ⟨u, hu, rfl⟩ := write_eq_some h
  obtain ⟨-, hu'⟩ := Option.ite_none_right_eq_some.mp hu
  obtain ⟨w, hw, hwu⟩ := Option.map_eq_some_iff.mp hu'
  obtain ⟨⟨he, hs⟩, rfl⟩ := OxTask.writeOutcome_eq_some.mp hw
  have hrow : u.row = s.shared.row.setOutcome r.outcome := by rw [← hwu]; rfl
  have hlive : s.shared.row.fence.live = true := OxTask.fence_live.mpr hs
  have hempty : s.landed = [] := by
    by_contra hne
    have hsp := hi.spent hne
    rw [← he] at hsp
    exact not_spent_of_live hlive hsp
  have hspent : Spent r.held.leaseEpoch u.row.fence := by
    rw [hrow, ← he]
    exact (OxTask.setOutcome_allows r.backoff r.now r.ending he).shut_spent
  have hreach : rowSystem.Reachable u := RowState.reachable_step hi.reachable hu
  refine ⟨hreach, RowState.step_held hu hi.held, by simp [hempty], fun _ => hspent, by simp, ?_,
    by simp⟩
  intro x hx
  simp only [hempty, List.mem_singleton] at hx
  subst hx
  exact ⟨List.mem_cons_self, s.shared.row, he, hrow⟩

/-- The check answers yes only on a row this execution's own try left. -/
theorem already_written_landed {r : Record} {s : WriterState} (ho : r.Own) (hi : s.Inv r)
    (h : s.shared.row.OutcomeAlreadyWritten r.held r.outcome) : s.landed ≠ [] := by
  have hrow := RowState.reachable_inv hi.reachable
  exact hi.logged (hrow.answered_of_already_written ho hi.held h)

theorem step_inv {r : Record} (ho : r.Own) {s s' : WriterState} {a : WriterAction} (hi : s.Inv r)
    (h : s.step r a = some s') : s'.Inv r := by
  rcases step_cases h with ⟨b, t, -, hf, ht, rfl⟩ | hl | ⟨p, rfl, hp⟩
  · exact foreign_inv hi hf ht
  · exact lands_inv hi hl
  · refine { hi with recorded := fun h => ?_ }
    have hl : s.landed ≠ [] := already_written_landed ho hi (hp h)
    exact hl

theorem reachable_inv {r : Record} (ho : r.Own) {s : WriterState}
    (h : (writerSystem r).Reachable s) : s.Inv r :=
  h.invariant (Inv r) (fun _ hs => inv_of_start hs) fun _ _ _ hi hs => step_inv ho hi hs

/-- What a try of the writer does to the row: nothing, or its one write, onto a row its own claim
still holds. -/
theorem step_own {r : Record} {s s' : WriterState} {a : WriterAction} (hi : s.Inv r)
    (h : s.step r a = some s') (ha : ∀ b, a ≠ .other b) :
    s'.shared = s.shared ∧ s'.landed = s.landed ∨
      s'.landed = s'.shared.row :: s.landed ∧
        s'.shared.row = s.shared.row.setOutcome r.outcome ∧
        ∃ since before, s.shared.log = since ++ .claimed r.held.leaseEpoch :: before ∧
          ∀ x ∈ since, x = .renewed ∨ x = .expired ∨ x = .lost := by
  rcases step_cases h with ⟨b, _, hb, -, -, -⟩ | ⟨t, p, hw, rfl⟩ | ⟨p, rfl, -⟩
  · exact absurd hb (ha b)
  · obtain ⟨u, hu, rfl⟩ := write_eq_some hw
    obtain ⟨-, hu'⟩ := Option.ite_none_right_eq_some.mp hu
    obtain ⟨v, hv, rfl⟩ := Option.map_eq_some_iff.mp hu'
    obtain ⟨⟨he, hs⟩, rfl⟩ := OxTask.writeOutcome_eq_some.mp hv
    obtain ⟨since, before, hlog, hsince, -⟩ := (RowState.reachable_inv hi.reachable).held hs
    exact .inr ⟨rfl, rfl, since, before, he ▸ hlog, hsince⟩
  · exact .inl ⟨rfl, rfl⟩

end WriterState

/-- Over any run, an outcome written across a lost connection changes the row at most once, with
the failure added once; a try that changes the row finds it as its own claim, or the reaper's LOST,
left it; and the writer answers True only when its own outcome has been on the row. -/
theorem outcome_recorded_once {r : Record} (ho : r.Own) {s : WriterState}
    (hs : (writerSystem r).Reachable s) :
    s.landed.length ≤ 1 ∧
      (∀ t ∈ s.landed, s.shared.Seen t ∧ t.errors = r.held.errors ++ r.ending.failures) ∧
      (s.phase = .returned true → ∃ t ∈ s.landed, t.OutcomeAlreadyWritten r.held r.outcome) ∧
      ∀ a s', (writerSystem r).step s a = some s' → (∀ b, a ≠ .other b) →
        s'.shared = s.shared ∧ s'.landed = s.landed ∨
          s'.landed = s'.shared.row :: s.landed ∧
            s'.shared.row = s.shared.row.setOutcome r.outcome ∧
            ∃ since before, s.shared.log = since ++ .claimed r.held.leaseEpoch :: before ∧
              ∀ x ∈ since, x = .renewed ∨ x = .expired ∨ x = .lost := by
  have hi := WriterState.reachable_inv ho hs
  refine ⟨hi.once, ?_, ?_, fun a s' h ha => WriterState.step_own hi h ha⟩
  · intro t ht
    obtain ⟨hseen, t₀, -, rfl⟩ := hi.seen t ht
    exact ⟨hseen, outcomeOf_errors r.backoff r.held r.now r.ending⟩
  · intro hp
    obtain ⟨t, ht⟩ := List.exists_mem_of_ne_nil _ (hi.recorded hp)
    obtain ⟨-, t₀, he, rfl⟩ := hi.seen t ht
    exact ⟨_, ht, t₀.outcomeAlreadyWritten_setOutcome he⟩

/-- The success of the first claim, from a worker with an exponential backoff. -/
def successRecord : Record := ⟨⟨1, 8⟩, firstHeld 1, 7, .returned (some "4")⟩

/-- The first try commits and its reply is lost; the check on the new connection finds the
outcome on the row. -/
theorem outcome_recorded_once_after_lost_reply :
    ∃ t s, rowSystem.run (enqueuedState 1) [.claimPostgresql (soloWorker "w1") 5 5] = some t ∧
      (writerSystem successRecord).run ⟨t, .first, []⟩
        [.firstTry (.raises true) (some 0), .check none] = some s ∧
      s.phase = .returned true ∧ s.landed.length ≤ 1 ∧
      ∃ u ∈ s.landed, u.OutcomeAlreadyWritten successRecord.held successRecord.outcome := by
  have recorded : ∀ t s, rowSystem.run (enqueuedState 1)
        [.claimPostgresql (soloWorker "w1") 5 5] = some t →
      successRecord.held ∈ t.held → Event.answered 1 ∉ t.log →
      (writerSystem successRecord).run ⟨t, .first, []⟩
        [.firstTry (.raises true) (some 0), .check none] = some s →
      s.phase = .returned true → s.landed.length ≤ 1 ∧
      ∃ u ∈ s.landed, u.OutcomeAlreadyWritten successRecord.held successRecord.outcome := by
    intro t s ht hh hl hs hp
    have hstart : WriterState.Start successRecord ⟨t, .first, []⟩ :=
      ⟨.of_run (enqueuedState_fresh 1) ht, hh, hl, rfl, rfl⟩
    have ho : successRecord.Own := by simp [Record.Own, successRecord]
    have := outcome_recorded_once ho (.of_run hstart hs)
    exact ⟨this.1, this.2.2.1 hp⟩
  exact ⟨_, _, rfl, rfl, rfl, recorded _ _ rfl (by decide) (by decide) rfl rfl⟩

end DjangoOx
