import DjangoOx.Workflow.EdgeTurn

/-! What one step of the releasing machine can do. -/
namespace DjangoOx

open Machine

/-- The party in whose call the step is; `none` for everybody else's. -/
def ReleasingAction.caller : ReleasingAction → Option ℕ
  | .other _ => none
  | .take x _ _ _ | .resolve x | .lockUpstream x _ | .readSucceeded x _ | .commitAdd x _ _ _ _ _
  | .write x _ _ _ _ _ | .lockNode x | .readEdges x | .commitOutcome x _ | .recheck x
  | .proveRows x _ | .proveRecords x _ | .markProven x _ | .takeChunk x _ | .beginChunk x
  | .readHeld x | .readWaiting x | .releaseMany x _ | .conflict x | .finish x | .fail x => some x

/-- The party that acts. -/
def ReleasingAction.party (a : ReleasingAction) : Option ℕ :=
  match a with
  | .other b => b.party
  | a => a.caller

namespace ReleasingState

variable {s s' : ReleasingState} {a : ReleasingAction} {x y : ℕ} {t u d : TaskId}

/-- A step of the call's pass, and what becomes of the call. -/
inductive Advances (s : ReleasingState) (x : ℕ) :
    ReleasingAction → WorkflowAction → ReleasingCall → ReleasingCall → Prop
  | resolve (w : ℕ) (name : String) (wanted : List String) : Advances s x (.resolve x)
      (.startAdd x w name wanted) (.taken w name wanted)
      (.adding w ((s.base.resolveDependencies w wanted).getD []))
  | readSucceeded (w size : ℕ) : Advances s x (.readSucceeded x size) (.readSucceeded x size)
      (.adding w []) (.adding w [])
  | recheck (t : TaskId) : Advances s x (.recheck x) (.readEdgesInto x [t]) (.rechecking t)
      (.rechecking t)
  | proveRows (t : TaskId) (size : ℕ) : Advances s x (.proveRows x size) (.proveRows x size)
      (.rechecking t) (.rechecking t)
  | proveRecords (t : TaskId) (size : ℕ) : Advances s x (.proveRecords x size)
      (.proveRecords x size) (.rechecking t) (.rechecking t)
  | beginChunk (left chunk : List TaskId) (i : ℕ) : Advances s x (.beginChunk x)
      (.startRelease x chunk) (.releasing left chunk i) (.releasing left chunk i)
  | readHeld (left chunk : List TaskId) (i : ℕ) : Advances s x (.readHeld x) (.readHeld x)
      (.releasing left chunk i) (.releasing left chunk i)
  | readWaiting (left chunk : List TaskId) (i : ℕ) : Advances s x (.readWaiting x)
      (.readWaiting x) (.releasing left chunk i) (.releasing left chunk i)
  | releaseMany (left chunk : List TaskId) (i : ℕ) (now : ℤ) : Advances s x (.releaseMany x now)
      (.releaseMany x now) (.releasing left chunk i) (.owing left)
  | conflict (left chunk : List TaskId) (i : ℕ) : Advances s x (.conflict x) (.abort x)
      (.releasing left chunk i) (.releasing left chunk (i + 1))

theorem Advances.party {b : WorkflowAction} {before call : ReleasingCall}
    (h : Advances s x a b before call) :
    a.caller = some x ∧ a.party = some x ∧ b.party = some x := by
  cases h <;> exact ⟨rfl, rfl, rfl⟩

/-- What a step does. -/
inductive Moves (s s' : ReleasingState) : ReleasingAction → Prop
  | other (a : WorkflowAction) (base : WorkflowState) (hbeside : s.base.Beside a = true)
      (hidle : ∀ x, a.party = some x → (s.calls x).isIdle = true) (hb : s.base.step a = some base)
      (hs : s' = { s with base := base }) : Moves s s' (.other a)
  | take (x w : ℕ) (name : String) (wanted : List String) (hcall : s.calls x = .idle)
      (hown : s.base.owner w = none)
      (hs : s' = { s.setCall x (.taken w name wanted) with
        base := { s.base with owner := Function.update s.base.owner w (some x) } }) :
      Moves s s' (.take x w name wanted)
  | lockUpstream (x w : ℕ) (t : TaskId) (unlocked : List TaskId)
      (hcall : s.calls x = .adding w unlocked)
      (hfree : s.nodeHolder t = none ∨ s.nodeHolder t = some x)
      (hs : s' = { s.setCall x (.adding w (unlocked.erase t)) with
        nodeHolder := Function.update s.nodeHolder t (some x) }) : Moves s s' (.lockUpstream x t)
  | advance (x : ℕ) (a : ReleasingAction) (b : WorkflowAction) (base : WorkflowState)
      (before call : ReleasingCall) (hb : s.base.step b = some base)
      (hcall : s.calls x = before) (hadv : Advances s x a b before call)
      (hs : s' = { s.setCall x call with base := base }) : Moves s s' a
  | commitAdd (x w : ℕ) (task : TaskId) (call : Call) (inherited : ℕ) (now : ℤ) (replied : Bool)
      (base : WorkflowState) (hcall : s.calls x = .adding w [])
      (hb : s.base.step (.commitAdd x task call inherited now) = some base)
      (hs : s' = s.commit x base
        (if (s.base.passes x).released then .idle else .rechecking task) replied) :
      Moves s s' (.commitAdd x task call inherited now replied)
  | write (x : ℕ) (t : TaskId) (b : Backoff) (held : OxTask) (now : ℤ) (ending : AttemptEnd)
      (r₀ r : RowState) (hcall : s.calls x = .idle) (hpass : s.base.passes x = .idle)
      (hfree : s.base.holder t = none)
      (hrow : s.base.rows t = some r₀) (hstep : r₀.step (.writeOutcome b held now ending) = some r)
      (hset : r.row.status.RecordedByTheWorker)
      (hs : s' = { s.setCall x (.writing t r .written) with
        base := { s.base with holder := Function.update s.base.holder t (some x) } }) :
      Moves s s' (.write x t b held now ending)
  | lockNode (x : ℕ) (t : TaskId) (r : RowState) (hcall : s.calls x = .writing t r .written)
      (hfree : s.nodeHolder t = none ∨ s.nodeHolder t = some x)
      (hs : s' = { s.setCall x (.writing t r .recorded) with
        nodeHolder := Function.update s.nodeHolder t (some x) }) : Moves s s' (.lockNode x)
  | noNode (x : ℕ) (t : TaskId) (r : RowState) (hcall : s.calls x = .writing t r .written)
      (hnode : s.base.nodeOf t = none) (hs : s' = s.setCall x (.writing t r .unrecorded)) :
      Moves s s' (.lockNode x)
  | readEdges (x : ℕ) (t : TaskId) (r : RowState) (hcall : s.calls x = .writing t r .recorded)
      (hset : r.row.status = .successful)
      (hs : s' = s.setCall x (.writing t r (.marked (s.base.openEdgesOut t)))) :
      Moves s s' (.readEdges x)
  | commitOutcome (x : ℕ) (replied : Bool) (t : TaskId) (r : RowState) (stage : OutcomeStage)
      (hcall : s.calls x = .writing t r stage) (hdone : stage.Done r.row.status = true)
      (hs : s' = s.commit x (s.base.withOutcome t r stage) (.owing stage.downstream) replied) :
      Moves s s' (.commitOutcome x replied)
  | markProven (x : ℕ) (locked : List ℕ) (t : TaskId) (base : WorkflowState)
      (hcall : s.calls x = .rechecking t) (hb : s.base.step (.markProven x locked) = some base)
      (hs : s' = { s.setCall x (.owing [t]) with
        base := base
        dropped := (if (s.base.passes x).wanted ⊆ locked then [] else [t]) ++ s.dropped }) :
      Moves s s' (.markProven x locked)
  | takeChunk (x size : ℕ) (left : List TaskId) (hcall : s.calls x = .owing left)
      (hs : s' = s.setCall x (.releasing (left.drop size) (left.take size) 1)) :
      Moves s s' (.takeChunk x size)
  | giveUp (x : ℕ) (left chunk : List TaskId) (i : ℕ) (base : WorkflowState)
      (hcall : s.calls x = .releasing left chunk i) (hlast : releaseChunkAttempts ≤ i)
      (hb : s.base.step (.abort x) = some base)
      (hs : s' = { s.setCall x (.owing left) with
        base := base, dropped := chunk ++ s.dropped }) : Moves s s' (.conflict x)
  | finish (x : ℕ) (hcall : s.calls x = .owing []) (hs : s' = s.setCall x .idle) :
      Moves s s' (.finish x)
  | fail (x : ℕ) (base : WorkflowState) (hb : s.base.step (.abort x) = some base)
      (hs : s' = { s.setCall x .idle with
        base := base, nodeHolder := s.unlocked x, dropped := (s.calls x).owed ++ s.dropped }) :
      Moves s s' (.fail x)

theorem advance_cases {b : WorkflowAction} {call : ReleasingCall}
    (h : s.advance x b call = some s') :
    ∃ base, s.base.step b = some base ∧ s' = { s.setCall x call with base := base } := by
  obtain ⟨base, hb, rfl⟩ := Option.map_eq_some_iff.mp h
  exact ⟨base, hb, rfl⟩

theorem moves_of_stepOther (h : s.stepOther a = some s') : Moves s s' a := by
  cases a with
  | other b =>
    obtain ⟨⟨hbeside, hidle⟩, h⟩ := Option.ite_none_right_eq_some.mp h
    obtain ⟨base, hb, h⟩ := Option.bind_eq_some_iff.mp h
    obtain ⟨-, h⟩ := Option.ite_none_right_eq_some.mp h
    obtain rfl := Option.some.inj h
    exact .other b base hbeside hidle hb rfl
  | _ => cases h

theorem moves_of_stepAdd (h : s.stepAdd a = some s') : Moves s s' a := by
  cases a with
  | take x w name wanted =>
    simp only [stepAdd] at h
    split at h
    · next f hc hp hf =>
      obtain ⟨⟨-, hown⟩, h⟩ := Option.ite_none_right_eq_some.mp h
      obtain rfl := Option.some.inj h
      exact .take x w name wanted hc hown rfl
    · cases h
  | resolve x =>
    simp only [stepAdd] at h
    split at h
    · next w name wanted hc =>
      obtain ⟨base, hb, rfl⟩ := advance_cases h
      exact .advance x _ _ base _ _ hb hc (.resolve w name wanted) rfl
    · cases h
  | lockUpstream x t =>
    simp only [stepAdd] at h
    split at h
    · next w unlocked hc =>
      obtain ⟨⟨-, hfree⟩, h⟩ := Option.ite_none_right_eq_some.mp h
      obtain rfl := Option.some.inj h
      exact .lockUpstream x w t unlocked hc hfree rfl
    · cases h
  | readSucceeded x size =>
    simp only [stepAdd] at h
    split at h
    · next w hc =>
      obtain ⟨base, hb, rfl⟩ := advance_cases h
      exact .advance x _ _ base _ _ hb hc (.readSucceeded w size) rfl
    · cases h
  | commitAdd x task call inherited now replied =>
    simp only [stepAdd] at h
    split at h
    · next w hc =>
      obtain ⟨base, hb, rfl⟩ := Option.map_eq_some_iff.mp h
      exact .commitAdd x w task call inherited now replied base hc hb rfl
    · cases h
  | _ => cases h

theorem moves_of_stepOutcome (h : s.stepOutcome a = some s') : Moves s s' a := by
  cases a with
  | write x t b held now ending =>
    simp only [stepOutcome] at h
    split at h
    · next hc hp hfree =>
      obtain ⟨r, hb, h⟩ := Option.bind_eq_some_iff.mp h
      obtain ⟨r₀, hrow, hstep⟩ := Option.bind_eq_some_iff.mp hb
      obtain ⟨hset, h⟩ := Option.ite_none_right_eq_some.mp h
      obtain rfl := Option.some.inj h
      exact .write x t b held now ending r₀ r hc hp hfree hrow hstep hset rfl
    · cases h
  | lockNode x =>
    simp only [stepOutcome] at h
    split at h
    · next t r hc =>
      split_ifs at h with hnode hfree
      · obtain rfl := Option.some.inj h
        exact .lockNode x t r hc hfree rfl
      · obtain rfl := Option.some.inj h
        exact .noNode x t r hc (by simpa using hnode) rfl
    · cases h
  | readEdges x =>
    simp only [stepOutcome] at h
    split at h
    · next t r hc =>
      obtain ⟨hset, h⟩ := Option.ite_none_right_eq_some.mp h
      obtain rfl := Option.some.inj h
      exact .readEdges x t r hc hset rfl
    · cases h
  | commitOutcome x replied =>
    simp only [stepOutcome] at h
    split at h
    · next t r stage hc =>
      obtain ⟨hdone, h⟩ := Option.ite_none_right_eq_some.mp h
      obtain rfl := Option.some.inj h
      exact .commitOutcome x replied t r stage hc hdone rfl
    · cases h
  | _ => cases h

theorem moves_of_stepRecheck (h : s.stepRecheck a = some s') : Moves s s' a := by
  cases a with
  | recheck x =>
    simp only [stepRecheck] at h
    split at h
    · next t hc =>
      obtain ⟨base, hb, rfl⟩ := advance_cases h
      exact .advance x _ _ base _ _ hb hc (.recheck t) rfl
    · cases h
  | proveRows x size =>
    simp only [stepRecheck] at h
    split at h
    · next t hc =>
      obtain ⟨base, hb, rfl⟩ := advance_cases h
      exact .advance x _ _ base _ _ hb hc (.proveRows t size) rfl
    · cases h
  | proveRecords x size =>
    simp only [stepRecheck] at h
    split at h
    · next t hc =>
      obtain ⟨base, hb, rfl⟩ := advance_cases h
      exact .advance x _ _ base _ _ hb hc (.proveRecords t size) rfl
    · cases h
  | markProven x locked =>
    simp only [stepRecheck] at h
    split at h
    · next t hc =>
      obtain ⟨s₁, h₁, rfl⟩ := Option.map_eq_some_iff.mp h
      obtain ⟨base, hb, rfl⟩ := advance_cases h₁
      exact .markProven x locked t base hc hb rfl
    · cases h
  | _ => cases h

theorem moves_of_stepRelease (h : s.stepRelease a = some s') : Moves s s' a := by
  cases a with
  | takeChunk x size =>
    simp only [stepRelease] at h
    split at h
    · next left hc =>
      obtain rfl := Option.some.inj h
      exact .takeChunk x size left hc rfl
    · cases h
  | beginChunk x =>
    simp only [stepRelease] at h
    split at h
    · next left chunk i hc =>
      obtain ⟨base, hb, rfl⟩ := advance_cases h
      exact .advance x _ _ base _ _ hb hc (.beginChunk left chunk i) rfl
    · cases h
  | readHeld x =>
    simp only [stepRelease] at h
    split at h
    · next left chunk i hc =>
      obtain ⟨base, hb, rfl⟩ := advance_cases h
      exact .advance x _ _ base _ _ hb hc (.readHeld left chunk i) rfl
    · cases h
  | readWaiting x =>
    simp only [stepRelease] at h
    split at h
    · next left chunk i hc =>
      obtain ⟨base, hb, rfl⟩ := advance_cases h
      exact .advance x _ _ base _ _ hb hc (.readWaiting left chunk i) rfl
    · cases h
  | releaseMany x now =>
    simp only [stepRelease] at h
    split at h
    · next left chunk i hc =>
      obtain ⟨base, hb, rfl⟩ := advance_cases h
      exact .advance x _ _ base _ _ hb hc (.releaseMany left chunk i now) rfl
    · cases h
  | conflict x =>
    simp only [stepRelease] at h
    split at h
    · next left chunk i hc =>
      split_ifs at h with hi
      · obtain ⟨base, hb, rfl⟩ := advance_cases h
        exact .advance x _ _ base _ _ hb hc (.conflict left chunk i) rfl
      · obtain ⟨s₁, h₁, rfl⟩ := Option.map_eq_some_iff.mp h
        obtain ⟨base, hb, rfl⟩ := advance_cases h₁
        exact .giveUp x left chunk i base hc (Nat.not_lt.mp hi) hb rfl
    · cases h
  | finish x =>
    simp only [stepRelease] at h
    split at h
    · next hc =>
      obtain rfl := Option.some.inj h
      exact .finish x hc rfl
    · cases h
  | fail x =>
    simp only [stepRelease] at h
    split_ifs at h
    obtain ⟨s₁, h₁, rfl⟩ := Option.map_eq_some_iff.mp h
    obtain ⟨base, hb, rfl⟩ := advance_cases h₁
    exact .fail x base hb rfl
  | _ => cases h

theorem step_moves (h : s.step a = some s') : Moves s s' a := by
  unfold step at h
  rcases Option.or_eq_some_iff.mp h with h | ⟨-, h⟩
  · exact moves_of_stepOther h
  rcases Option.or_eq_some_iff.mp h with h | ⟨-, h⟩
  · exact moves_of_stepAdd h
  rcases Option.or_eq_some_iff.mp h with h | ⟨-, h⟩
  · exact moves_of_stepOutcome h
  rcases Option.or_eq_some_iff.mp h with h | ⟨-, h⟩
  · exact moves_of_stepRecheck h
  · exact moves_of_stepRelease h

end ReleasingState

end DjangoOx
