import DjangoOx.Supervisor.Slots

/-! Every slot of the supervisor is with a child or waits to be started again. -/
namespace DjangoOx

open Machine

namespace Supervisor

variable {o : SupervisorOptions} {s t : Supervisor}

/-- The slot and the code of every child ever started. -/
def faces (s : Supervisor) : List (ℕ × Option ℤ) :=
  s.processes.map fun p => (p.slot, p.returncode)

/-- No child runs that was not sent SIGTERM. -/
def Settled (s : Supervisor) : Prop :=
  ∀ p ∈ s.processes, p.returncode.isSome ∨ sigterm ∈ p.signals

instance (s : Supervisor) : Decidable s.Settled := inferInstanceAs (Decidable (∀ _ ∈ _, _))

/-- The dictionaries and the children, wherever `run` stands. -/
structure Core (o : SupervisorOptions) (s : Supervisor) : Prop where
  child : ∀ i pid, s.children.get? i = some pid → i < o.processes ∧ ∃ code, s.faces[pid]? = some (i, code)
  running : ∀ i pid, s.faces[pid]? = some (i, none) → s.children.get? i = some pid
  due : ∀ i d, s.restartDue.get? i = some d → i < o.processes ∧ s.children.get? i = none
  quiet : s.stopping = true → ∀ i, s.restartDue.get? i = none

/-- The slots below `i` were started, and no other. -/
structure Filled (o : SupervisorOptions) (s : Supervisor) (i : ℕ) : Prop where
  le : i ≤ o.processes
  empty : ∀ j, i ≤ j → s.children.get? j = none
  noDue : ∀ j, s.restartDue.get? j = none
  full : s.stopping = false → ∀ j < i, (s.children.get? j).isSome

/-- Every slot but the one being looked at is in one of the two dictionaries. -/
def Whole (o : SupervisorOptions) (s : Supervisor) (hole : Option ℕ) : Prop :=
  s.stopping = false → ∀ j < o.processes, hole ≠ some j →
    (s.children.get? j).isSome ∨ (s.restartDue.get? j).isSome

def Hole (o : SupervisorOptions) (s : Supervisor) (i : ℕ) : Prop :=
  i < o.processes ∧ s.children.get? i = none ∧ s.restartDue.get? i = none

/-- What is left of the children a reap goes through. -/
def Live (s : Supervisor) (rest : List (ℕ × ℕ)) : Prop :=
  (rest.map Prod.fst).Nodup ∧ ∀ e ∈ rest, s.children.get? e.1 = some e.2

/-- What is left of the restarts `_start_due` goes through. -/
def Waiting (s : Supervisor) (now : ℤ) (rest : List (ℕ × ℤ)) : Prop :=
  now ≤ s.clock ∧ (rest.map Prod.fst).Nodup ∧ ∀ e ∈ rest, s.restartDue.get? e.1 = some e.2

/-- A caller of `_reap_exited`. -/
def Reaps (s : Supervisor) : Caller → Prop
  | .first _ => False
  | .round => True
  | .closing _ => s.stopping = true

/-- What holds at a stage of `run`. -/
def At (o : SupervisorOptions) (s : Supervisor) : Stage → Prop
  | .idle => s.Filled o 0
  | .first i => s.Filled o i
  | .processSignals (.first i) | .checking i | .starting i none => s.Filled o i ∧ i < o.processes
  | .opening i none => s.stopping = false ∧ s.Filled o i ∧ i < o.processes
  | .opened i _ none => s.Filled o (i + 1)
  | .looping | .processSignals .round | .startDue | .killOverdue .round => s.Whole o none
  | .reaping rest k => s.Reaps k ∧ s.Whole o none ∧ s.Live rest
  | .recording i _ rest k | .judging i _ rest k =>
    s.Reaps k ∧ s.Whole o (some i) ∧ s.Hole o i ∧ s.Live rest
  | .timing i _ rest k | .putting i _ rest k =>
    k = .round ∧ s.Whole o (some i) ∧ s.Hole o i ∧ s.Live rest
  | .dueLoop now rest => s.stopping = false ∧ s.Whole o none ∧ s.Waiting now rest
  | .starting i (some (now, rest)) | .opening i (some (now, rest)) =>
    s.stopping = false ∧ s.Whole o none ∧ ∃ due ≤ now, s.Waiting now ((i, due) :: rest)
  | .opened _ _ (some (now, rest)) => s.stopping = false ∧ s.Whole o none ∧ s.Waiting now rest
  | .closing _ => True
  | .processSignals (.closing _) | .killOverdue (.closing _) | .leaving _ => s.stopping = true
  | .killOverdue (.first _) => False
  | .returned _ | .raised => s.Settled

def Inv (o : SupervisorOptions) (s : Supervisor) : Prop := s.Core o ∧ s.At o s.stage

/-! Sending signals leaves everything else as it was. -/

theorem faces_send (signum : ℤ) (pid : ℕ) : (s.send signum pid).faces = s.faces := by
  unfold faces send
  apply List.ext_getElem?
  intro j
  simp only [List.getElem?_map, List.getElem?_modify]
  by_cases hj : pid = j <;> cases s.processes[j]? <;> simp [hj]

/-- Only the children's signals change, and none is taken back. -/
structure Signalled (s t : Supervisor) : Prop where
  eq : t = { s with processes := t.processes }
  faces : t.faces = s.faces
  settled : s.Settled → t.Settled

theorem Signalled.refl (s : Supervisor) : s.Signalled s := ⟨rfl, rfl, id⟩

theorem Settled.send (h : s.Settled) (signum : ℤ) (pid : ℕ) : (s.send signum pid).Settled := by
  intro p hp
  unfold Supervisor.send at hp
  obtain ⟨j, hj⟩ := List.getElem?_of_mem hp
  rw [List.getElem?_modify] at hj
  obtain ⟨q, hq, hqp⟩ := Option.map_eq_some_iff.mp hj
  have hsettled := h q (List.mem_of_getElem? hq)
  by_cases hpid : pid = j
  · rw [if_pos hpid] at hqp
    subst hqp
    rw [ChildProcess.returncode_sendSignal]
    unfold ChildProcess.sendSignal
    split_ifs with hrun
    · exact hsettled.imp id fun h => List.mem_append_left _ h
    · exact hsettled
  · rw [if_neg hpid] at hqp
    exact hqp ▸ hsettled

theorem signalled_send (signum : ℤ) (pid : ℕ) : s.Signalled (s.send signum pid) :=
  ⟨rfl, faces_send signum pid, fun h => h.send signum pid⟩

theorem Signalled.trans {u : Supervisor} (h : s.Signalled t) (h' : t.Signalled u) : s.Signalled u := by
  refine ⟨?_, h'.faces.trans h.faces, h'.settled ∘ h.settled⟩
  have ht := h.eq
  have hu := h'.eq
  rw [ht] at hu
  exact hu

theorem signalled_signalChildren (s : Supervisor) (signum : ℤ) :
    s.Signalled (s.signalChildren signum) := by
  unfold signalChildren
  generalize s.children.items = l
  induction l generalizing s with
  | nil => exact .refl s
  | cons child l ih => exact (signalled_send signum child.2).trans (ih _)

/-- The dictionaries and the flag are the same, and the clock did not go back. -/
structure Same (s t : Supervisor) : Prop where
  children : t.children = s.children
  restartDue : t.restartDue = s.restartDue
  stopping : t.stopping = s.stopping
  clock : s.clock ≤ t.clock
  settled : s.Settled → t.Settled

theorem Signalled.same (h : s.Signalled t) : s.Same t := by
  constructor
  · rw [h.eq]
  · rw [h.eq]
  · rw [h.eq]
  · rw [h.eq]
  · exact h.settled

theorem Same.trans {u : Supervisor} (h : s.Same t) (h' : t.Same u) : s.Same u :=
  ⟨h'.children.trans h.children, h'.restartDue.trans h.restartDue, h'.stopping.trans h.stopping,
    h.clock.trans h'.clock, h'.settled ∘ h.settled⟩

theorem Same.core (h : s.Same t) (hf : t.faces = s.faces) (hc : s.Core o) : t.Core o := by
  constructor
  · rw [h.children, hf]
    exact hc.child
  · rw [h.children, hf]
    exact hc.running
  · rw [h.children, h.restartDue]
    exact hc.due
  · rw [h.stopping, h.restartDue]
    exact hc.quiet

section same

variable (h : s.Same t)

include h

theorem Same.filled {i : ℕ} (hs : s.Filled o i) : t.Filled o i := by
  constructor
  · exact hs.le
  · rw [h.children]
    exact hs.empty
  · rw [h.restartDue]
    exact hs.noDue
  · rw [h.children, h.stopping]
    exact hs.full

theorem Same.whole {hole : Option ℕ} (hs : s.Whole o hole) : t.Whole o hole := by
  unfold Whole
  rw [h.children, h.restartDue, h.stopping]
  exact hs

theorem Same.hole {i : ℕ} (hs : s.Hole o i) : t.Hole o i := by
  unfold Hole
  rw [h.children, h.restartDue]
  exact hs

theorem Same.live {rest : List (ℕ × ℕ)} (hs : s.Live rest) : t.Live rest := by
  unfold Live
  rw [h.children]
  exact hs

theorem Same.waiting {now : ℤ} {rest : List (ℕ × ℤ)} (hs : s.Waiting now rest) :
    t.Waiting now rest := by
  unfold Waiting
  rw [h.restartDue]
  exact ⟨hs.1.trans h.clock, hs.2⟩

theorem Same.reaps {k : Caller} (hs : s.Reaps k) : t.Reaps k := by
  cases k with
  | first i => exact hs
  | round => trivial
  | closing raising => exact h.stopping.trans hs

theorem Same.at {stage : Stage} (hs : s.At o stage) : t.At o stage := by
  cases stage with
  | idle | first i => exact h.filled hs
  | processSignals k | killOverdue k =>
    cases k with
    | first i => first | exact ⟨h.filled hs.1, hs.2⟩ | exact hs
    | round => exact h.whole hs
    | closing raising => exact h.stopping.trans hs
  | checking i => exact ⟨h.filled hs.1, hs.2⟩
  | starting i dues =>
    match dues with
    | none => exact ⟨h.filled hs.1, hs.2⟩
    | some (now, rest) =>
      obtain ⟨hstop, hwhole, due, hdue, hwait⟩ := hs
      exact ⟨h.stopping.trans hstop, h.whole hwhole, due, hdue, h.waiting hwait⟩
  | opening i dues =>
    match dues with
    | none => exact ⟨h.stopping.trans hs.1, h.filled hs.2.1, hs.2.2⟩
    | some (now, rest) =>
      obtain ⟨hstop, hwhole, due, hdue, hwait⟩ := hs
      exact ⟨h.stopping.trans hstop, h.whole hwhole, due, hdue, h.waiting hwait⟩
  | opened i pid dues =>
    match dues with
    | none => exact h.filled hs
    | some (now, rest) => exact ⟨h.stopping.trans hs.1, h.whole hs.2.1, h.waiting hs.2.2⟩
  | looping | startDue => exact h.whole hs
  | reaping rest k => exact ⟨h.reaps hs.1, h.whole hs.2.1, h.live hs.2.2⟩
  | recording i code rest k | judging i code rest k =>
    exact ⟨h.reaps hs.1, h.whole hs.2.1, h.hole hs.2.2.1, h.live hs.2.2.2⟩
  | timing i code rest k | putting i due rest k =>
    exact ⟨hs.1, h.whole hs.2.1, h.hole hs.2.2.1, h.live hs.2.2.2⟩
  | dueLoop now rest => exact ⟨h.stopping.trans hs.1, h.whole hs.2.1, h.waiting hs.2.2⟩
  | closing raising => trivial
  | leaving raising => exact h.stopping.trans hs
  | returned code | raised => exact h.settled hs

end same

theorem Core.settled (hc : s.Core o) (h : s.children.items = []) : s.Settled := by
  intro p hp
  left
  obtain ⟨pid, hpid⟩ := List.getElem?_of_mem hp
  cases hr : p.returncode with
  | some code => rfl
  | none =>
    have hface : s.faces[pid]? = some (p.slot, none) := by
      simp [Supervisor.faces, hpid, hr]
    have hchild := hc.running _ _ hface
    rw [Dict.items_eq_nil.mp h] at hchild
    cases hchild

theorem Core.requestStop (hc : s.Core o) : s.requestStop.Core o where
  child := hc.child
  running := hc.running
  due i d h := by cases h
  quiet _ _ := rfl

/-- A stop leaves nothing to be conserved but what a reap goes through. -/
theorem At.requestStop {stage : Stage} (hs : s.At o stage) (hl : stage.locked = false) :
    s.requestStop.At o stage := by
  have hfilled {i : ℕ} (h : s.Filled o i) : s.requestStop.Filled o i :=
    ⟨h.le, h.empty, fun _ => rfl, fun h => nomatch h⟩
  have hwhole (hole : Option ℕ) : s.requestStop.Whole o hole := fun h => nomatch h
  have hhole {i : ℕ} (h : s.Hole o i) : s.requestStop.Hole o i := ⟨h.1, h.2.1, rfl⟩
  have hreaps {k : Caller} (h : s.Reaps k) : s.requestStop.Reaps k := by
    cases k with
    | first i => exact h
    | round => trivial
    | closing raising => rfl
  cases stage with
  | idle | first i => exact hfilled hs
  | processSignals k | killOverdue k =>
    cases k with
    | first i => first | exact ⟨hfilled hs.1, hs.2⟩ | exact hs
    | round => exact hwhole _
    | closing raising => rfl
  | checking i => exact ⟨hfilled hs.1, hs.2⟩
  | starting i dues =>
    match dues with
    | none => exact ⟨hfilled hs.1, hs.2⟩
    | some (now, rest) => cases hl
  | opening i dues => cases hl
  | opened i pid dues =>
    match dues with
    | none => exact hfilled hs
    | some (now, rest) => cases hl
  | looping | startDue => exact hwhole _
  | reaping rest k => exact ⟨hreaps hs.1, hwhole _, hs.2.2⟩
  | recording i code rest k | judging i code rest k =>
    exact ⟨hreaps hs.1, hwhole _, hhole hs.2.2.1, hs.2.2.2⟩
  | timing i code rest k | putting i due rest k =>
    exact ⟨hs.1, hwhole _, hhole hs.2.2.1, hs.2.2.2⟩
  | dueLoop now rest => cases hl
  | closing raising => trivial
  | leaving raising => rfl
  | returned code | raised => exact hs

/-! What a reap does to a slot. -/

theorem faces_poll {i pid : ℕ} {code : Option ℤ} (h : s.faces[pid]? = some (i, code)) :
    s.poll pid = code := by
  unfold Supervisor.faces at h
  rw [List.getElem?_map] at h
  obtain ⟨p, hp, hface⟩ := Option.map_eq_some_iff.mp h
  unfold poll
  rw [hp]
  exact (Prod.mk.inj hface).2

theorem Core.erase (hc : s.Core o) {i pid : ℕ} {code : ℤ} (hchild : s.children.get? i = some pid)
    (hcode : s.poll pid = some code) : Core o { s with children := s.children.erase i } := by
  constructor
  · intro j q hj
    simp only [Dict.get?_erase] at hj
    split_ifs at hj with hji
    exact hc.child j q hj
  · intro j q hj
    have hq := hc.running j q hj
    have hji : j ≠ i := by
      rintro rfl
      rw [hchild] at hq
      cases hq
      have hnone : s.poll pid = none := faces_poll hj
      rw [hnone] at hcode
      cases hcode
    simp only [Dict.get?_erase, if_neg hji]
    exact hq
  · intro j d hj
    obtain ⟨hlt, hnone⟩ := hc.due j d hj
    refine ⟨hlt, ?_⟩
    simp [hnone]
  · exact hc.quiet

theorem At.erase (hc : s.Core o) {i pid : ℕ} {rest : List (ℕ × ℕ)} {k : Caller}
    (hs : s.At o (.reaping ((i, pid) :: rest) k)) (code : ℤ) :
    At o { s with children := s.children.erase i } (.recording i code rest k) := by
  obtain ⟨hreaps, hwhole, hnodup, hlive⟩ := hs
  obtain ⟨hi, hnodup⟩ := List.nodup_cons.mp hnodup
  have hchild : s.children.get? i = some pid := hlive (i, pid) List.mem_cons_self
  refine ⟨?_, ?_, ?_, hnodup, ?_⟩
  · cases k with
    | first i => exact hreaps
    | round => trivial
    | closing raising => exact hreaps
  · intro hstop j hj hne
    have hji : j ≠ i := fun h => hne (h ▸ rfl)
    simp only [Dict.get?_erase, if_neg hji]
    exact hwhole hstop j hj (by simp)
  · refine ⟨(hc.child i pid hchild).1, by simp, ?_⟩
    rw [Option.eq_none_iff_forall_ne_some]
    intro d hd
    have hnone := (hc.due i d hd).2
    rw [hchild] at hnone
    cases hnone
  · intro e he
    have hei : e.1 ≠ i := by
      rintro rfl
      exact hi (List.mem_map.mpr ⟨e, he, rfl⟩)
    simp only [Dict.get?_erase, if_neg hei]
    exact hlive e (List.mem_cons_of_mem _ he)

theorem Core.put (hc : s.Core o) {i : ℕ} (due : ℤ) (hi : i < o.processes)
    (hchild : s.children.get? i = none) (hstop : s.stopping = false) :
    Core o { s with restartDue := s.restartDue.set i due } := by
  constructor
  · exact hc.child
  · exact hc.running
  · intro j d hj
    simp only [Dict.get?_set] at hj
    split_ifs at hj with hji
    · subst hji
      exact ⟨hi, hchild⟩
    · exact hc.due j d hj
  · intro hstop'
    rw [hstop'] at hstop
    cases hstop

theorem At.put {i : ℕ} {due : ℤ} {rest : List (ℕ × ℕ)} {k : Caller}
    (hs : s.At o (.putting i due rest k)) (due : ℤ) :
    At o { s with restartDue := s.restartDue.set i due } (.reaping rest k) := by
  obtain ⟨rfl, hwhole, -, hlive⟩ := hs
  refine ⟨trivial, ?_, hlive⟩
  intro hstop j hj _
  simp only [Dict.get?_set]
  by_cases hji : j = i
  · right
    simp [hji]
  · rw [if_neg hji]
    exact hwhole hstop j hj (fun h => hji (Option.some.inj h).symm)

/-! What a start does to a slot. -/

theorem Core.opened (hc : s.Core o) {i : ℕ} (hi : i < o.processes)
    (hchild : s.children.get? i = none) : (s.opened i).Core o := by
  have hfaces : (s.opened i).faces = s.faces ++ [(i, none)] := by
    simp [Supervisor.faces, Supervisor.opened]
  have hlen : s.faces.length = s.processes.length := by
    simp [Supervisor.faces]
  constructor
  · intro j q hj
    simp only [Supervisor.opened, Dict.get?_set] at hj
    rw [hfaces]
    split_ifs at hj with hji
    · cases hj
      refine ⟨hji ▸ hi, none, ?_⟩
      rw [List.getElem?_append_right hlen.le, hlen]
      simp [hji]
    · obtain ⟨hlt, code, hface⟩ := hc.child j q hj
      refine ⟨hlt, code, ?_⟩
      rw [List.getElem?_append_left (List.getElem?_eq_some_iff.mp hface).1]
      exact hface
  · intro j q hj
    rw [hfaces] at hj
    simp only [Supervisor.opened, Dict.get?_set]
    by_cases hq : q < s.faces.length
    · rw [List.getElem?_append_left hq] at hj
      have hrun := hc.running j q hj
      have hji : j ≠ i := by
        rintro rfl
        rw [hchild] at hrun
        cases hrun
      rw [if_neg hji]
      exact hrun
    · rw [List.getElem?_append_right (not_lt.mp hq)] at hj
      obtain ⟨hzero, hface⟩ := List.getElem?_eq_some_iff.mp hj
      rw [List.length_singleton] at hzero
      rw [List.getElem_singleton] at hface
      rw [if_pos (Prod.mk.inj hface).1.symm, ← hlen]
      congr 1
      omega
  · intro j d hj
    simp only [Supervisor.opened, Dict.get?_erase, Dict.get?_set] at hj ⊢
    split_ifs at hj with hji
    rw [if_neg hji]
    exact hc.due j d hj
  · intro hstop j
    simp only [Supervisor.opened, Dict.get?_erase, hc.quiet hstop j, ite_self]

theorem At.opened {i : ℕ} {dues : Dues} (hc : s.Core o) (hs : s.At o (.opening i dues)) (pid : ℕ) :
    (s.opened i).Core o ∧ (s.opened i).At o (.opened i pid dues) := by
  match dues with
  | none =>
    obtain ⟨hstop, hfilled, hi⟩ := hs
    refine ⟨hc.opened hi (hfilled.empty i le_rfl), hi, ?_, ?_, ?_⟩
    · intro j hj
      simp only [Supervisor.opened, Dict.get?_set, if_neg (show j ≠ i by omega)]
      exact hfilled.empty j (by omega)
    · intro j
      simp only [Supervisor.opened, Dict.get?_erase, hfilled.noDue j, ite_self]
    · intro hstop j hj
      simp only [Supervisor.opened, Dict.get?_set]
      by_cases hji : j = i
      · simp [hji]
      · rw [if_neg hji]
        exact hfilled.full hstop j (by omega)
  | some (now, rest) =>
    obtain ⟨hstop, hwhole, due, hdue, hnow, hnodup, hwait⟩ := hs
    obtain ⟨hi, hnodup⟩ := List.nodup_cons.mp hnodup
    obtain ⟨hlt, hchild⟩ := hc.due i due (hwait (i, due) List.mem_cons_self)
    refine ⟨hc.opened hlt hchild, hstop, ?_, hnow, hnodup, ?_⟩
    · intro hstop j hj hne
      simp only [Supervisor.opened, Dict.get?_set, Dict.get?_erase]
      by_cases hji : j = i
      · left
        simp [hji]
      · rw [if_neg hji, if_neg hji]
        exact hwhole hstop j hj hne
    · intro e he
      have hei : e.1 ≠ i := by
        rintro rfl
        exact hi (List.mem_map.mpr ⟨e, he, rfl⟩)
      simp only [Supervisor.opened, Dict.get?_erase, if_neg hei]
      exact hwait e (List.mem_cons_of_mem _ he)

theorem At.afterStart {i pid : ℕ} {dues : Dues} (hs : s.At o (.opened i pid dues)) :
    s.At o (afterStart i dues) := by
  match dues with
  | none => exact hs
  | some (now, rest) => exact hs

theorem Inv.of_at (hc : s.Core o) {stage : Stage} (hs : s.At o stage) : (s.goto stage).Inv o := by
  have hsame : s.Same (s.goto stage) := ⟨rfl, rfl, rfl, le_rfl, id⟩
  exact ⟨hsame.core rfl hc, hsame.at hs⟩

theorem Signalled.goto (h : s.Signalled t) (hc : s.Core o) {stage : Stage} (hs : s.At o stage) :
    (t.goto stage).Inv o :=
  .of_at (h.same.core h.faces hc) (h.same.at hs)

theorem killOverdue_same (s : Supervisor) :
    s.Same s.killOverdue ∧ s.killOverdue.faces = s.faces := by
  unfold Supervisor.killOverdue
  split
  · exact ⟨⟨rfl, rfl, rfl, le_rfl, id⟩, rfl⟩
  · split_ifs with h
    · exact ⟨⟨rfl, rfl, rfl, le_rfl, id⟩, rfl⟩
    · have hsignalled := signalled_signalChildren { s with killAt := none } sigkill
      have hsame : s.Same { s with killAt := none } := ⟨rfl, rfl, rfl, le_rfl, id⟩
      exact ⟨hsame.trans hsignalled.same, hsignalled.faces⟩

theorem actOnSignal_eq (o : SupervisorOptions) (s : Supervisor) :
    ∃ killAt, s.actOnSignal o = signalChildren (requestStop { s with
      signalsSeen := s.signalsSeen + 1, killAt := killAt, asked := true }) sigterm :=
  ⟨_, rfl⟩

theorem Inv.actOnSignal (h : s.Inv o) {k : Caller} (hstage : s.stage = .processSignals k) :
    (s.actOnSignal o).Inv o := by
  obtain ⟨hc, hs⟩ := h
  obtain ⟨killAt, heq⟩ := actOnSignal_eq o s
  rw [heq]
  let u : Supervisor := { s with signalsSeen := s.signalsSeen + 1, killAt := killAt, asked := true }
  have hsame : s.Same u := ⟨rfl, rfl, rfl, le_rfl, id⟩
  have hsignalled := signalled_signalChildren u.requestStop sigterm
  have hstage' : (u.requestStop.signalChildren sigterm).stage = u.requestStop.stage := by
    rw [hsignalled.eq]
  have hat : u.requestStop.At o s.stage := by
    apply At.requestStop (hsame.at hs)
    rw [hstage]
    rfl
  constructor
  · exact hsignalled.same.core hsignalled.faces (hsame.core rfl hc).requestStop
  · rw [hstage']
    exact hsignalled.same.at hat

/-- A reap that trips the cap stops, and any other goes on to put its restart. -/
theorem Inv.judge {i : ℕ} {code : ℤ} {rest : List (ℕ × ℕ)} {k : Caller} (hc : s.Core o)
    (hs : s.At o (.timing i code rest k)) : (s.judge o i code rest k).Inv o := by
  unfold Supervisor.judge
  dsimp only
  split_ifs with hcode hcap
  · have hsame : s.Same { s with exits := s.exits ++
        [⟨i, code, s.clock - (s.startedAt i).getD s.clock, s.clock⟩] } := ⟨rfl, rfl, rfl, le_rfl, id⟩
    exact .of_at (hsame.core rfl hc) (@Same.at o s _ hsame (.putting i _ rest k) hs)
  · obtain ⟨rfl, -, -, hlive⟩ := hs
    generalize Function.update s.deaths i _ = deaths
    generalize s.exits ++ _ = exits
    have hsame : s.Same { s with exits := exits, deaths := deaths, capTripped := true } :=
      ⟨rfl, rfl, rfl, le_rfl, id⟩
    have hstop := (hsame.core rfl hc).requestStop
    exact (signalled_signalChildren _ sigterm).goto hstop ⟨trivial, (fun h => nomatch h), hlive⟩
  · unfold nextDelay
    dsimp only
    generalize Function.update s.deaths i _ = deaths
    generalize s.exits ++ _ = exits
    generalize Function.update s.backoff i _ = backoff
    have hsame : s.Same { s with exits := exits, deaths := deaths, backoff := backoff } :=
      ⟨rfl, rfl, rfl, le_rfl, id⟩
    exact .of_at (hsame.core rfl hc) (@Same.at o s _ hsame (.putting i _ rest k) hs)

theorem Inv.advance (h : s.Inv o) (ht : s.advance o = some t) : t.Inv o := by
  have hinv := h
  obtain ⟨hc, hs⟩ := h
  unfold Supervisor.advance at ht
  split at ht <;> rename_i hstage <;> rw [hstage] at hs
  · cases ht
    exact .of_at hc hs
  · next i =>
    cases ht
    apply Inv.of_at hc
    split_ifs with hi
    · exact ⟨hs, hi⟩
    · intro hstop j hj _
      exact .inl (hs.full hstop j (by have := hs.le; omega))
  · next k =>
    split at ht
    · cases ht
      apply Inv.of_at hc
      cases k with
      | first i => exact hs
      | round =>
        exact ⟨trivial, hs, s.children.nodup, fun e he => Dict.get?_eq_some.mpr he⟩
      | closing raising => exact hs
    · next rest hrest =>
      cases ht
      have hsame : s.Same { s with signals := rest } := ⟨rfl, rfl, rfl, le_rfl, id⟩
      have hrest : Inv o { s with signals := rest } :=
        ⟨hsame.core rfl hc, hsame.at (by rw [hstage]; exact hs)⟩
      exact hrest.actOnSignal hstage
  · next i =>
    cases ht
    apply Inv.of_at hc
    split_ifs with hstop
    · intro h
      rw [h] at hstop
      cases hstop
    · exact hs
  · next i dues =>
    cases ht
    apply Inv.of_at hc
    split_ifs with hstop
    · match dues with
      | none =>
        obtain ⟨hfilled, hi⟩ := hs
        refine ⟨hi, fun j hj => hfilled.empty j (by omega), hfilled.noDue, ?_⟩
        intro h
        rw [h] at hstop
        cases hstop
      | some (now, rest) =>
        rw [hs.1] at hstop
        cases hstop
    · match dues with
      | none => exact ⟨Bool.eq_false_of_not_eq_true hstop, hs⟩
      | some (now, rest) => exact hs
  · next i dues =>
    cases ht
    obtain ⟨hcore, hat⟩ := At.opened hc hs s.processes.length
    exact .of_at hcore hat
  · next i pid dues =>
    cases ht
    split_ifs with hstop
    · exact (signalled_send sigterm pid).goto hc hs.afterStart
    · exact .of_at hc hs.afterStart
  · cases ht
    apply Inv.of_at hc
    split_ifs with hgo
    · exact hs
    · trivial
  · next k =>
    cases ht
    apply Inv.of_at hc
    cases k with
    | first i => exact hs.1.elim
    | round => exact hs.2.1
    | closing raising => exact hs.1
  · next i pid rest k =>
    split at ht
    · cases ht
      obtain ⟨hreaps, hwhole, hnodup, hlive⟩ := hs
      apply Inv.of_at hc
      exact ⟨hreaps, hwhole, (List.nodup_cons.mp hnodup).2,
        fun e he => hlive e (List.mem_cons_of_mem _ he)⟩
    · next code hcode =>
      cases ht
      have hchild : s.children.get? i = some pid := hs.2.2.2 (i, pid) List.mem_cons_self
      exact .of_at (hc.erase hchild hcode) (hs.erase hc code)
  · next i code rest k =>
    cases ht
    have hsame : s.Same (s.recordExit i code) := ⟨rfl, rfl, rfl, le_rfl, id⟩
    exact .of_at (hsame.core rfl hc) (@Same.at o s _ hsame (.judging i code rest k) hs)
  · next i code rest k =>
    cases ht
    apply Inv.of_at hc
    obtain ⟨hreaps, hwhole, hhole, hlive⟩ := hs
    split_ifs with hstop
    · refine ⟨hreaps, ?_, hlive⟩
      intro h
      rw [h] at hstop
      cases hstop
    · refine ⟨?_, hwhole, hhole, hlive⟩
      cases k with
      | first i => exact hreaps.elim
      | round => rfl
      | closing raising => exact absurd hreaps hstop
  · cases ht
    exact .judge hc hs
  · next i due rest k =>
    cases ht
    split_ifs with hstop
    · obtain ⟨rfl, -, -, hlive⟩ := hs
      apply Inv.of_at hc
      refine ⟨trivial, ?_, hlive⟩
      intro h
      rw [h] at hstop
      cases hstop
    · have hhole := hs.2.2.1
      exact .of_at (hc.put due hhole.1 hhole.2.1 (Bool.eq_false_of_not_eq_true hstop)) (hs.put due)
  · cases ht
    apply Inv.of_at hc
    split_ifs with hstop
    · exact hs
    · exact ⟨Bool.eq_false_of_not_eq_true hstop, hs, le_rfl, s.restartDue.nodup,
        fun e he => Dict.get?_eq_some.mpr he⟩
  · cases ht
    exact .of_at hc hs.2.1
  · next now i due rest =>
    cases ht
    apply Inv.of_at hc
    obtain ⟨hstop, hwhole, hnow, hnodup, hwait⟩ := hs
    split_ifs with hdue
    · exact ⟨hstop, hwhole, due, hdue, hnow, hnodup, hwait⟩
    · exact ⟨hstop, hwhole, hnow, (List.nodup_cons.mp hnodup).2,
        fun e he => hwait e (List.mem_cons_of_mem _ he)⟩
  · next k =>
    cases ht
    obtain ⟨hsame, hfaces⟩ := s.killOverdue_same
    apply Inv.of_at (hsame.core hfaces hc)
    cases k with
    | first i => exact hs.elim
    | round => exact hsame.whole hs
    | closing raising =>
      have hstop : s.killOverdue.stopping = true := hsame.stopping.trans hs
      refine ⟨hstop, ?_, s.children.nodup, ?_⟩
      · intro h
        rw [h] at hstop
        cases hstop
      · intro e he
        rw [hsame.children]
        exact Dict.get?_eq_some.mpr he
  · cases ht
    exact (signalled_signalChildren _ sigterm).goto hc.requestStop rfl
  · cases ht
    apply Inv.of_at hc
    split_ifs with hempty hraising
    · exact hs
    · exact hc.settled (not_not.mp hempty)
    · exact hc.settled (not_not.mp hempty)
  · cases ht
  · cases ht

/-- A start of the first loop raises while a child of it runs that nobody stopped. -/
def Stranded (s : Supervisor) : Action → Prop
  | .fail => ¬ s.Settled ∧ ∃ i, s.stage = .opening i none
  | _ => False

theorem Inv.exit (h : s.Inv o) {pid : ℕ} {code : ℤ} {p : ChildProcess}
    (hp : s.processes[pid]? = some p) :
    Inv o { s with processes := s.processes.modify pid ({ · with returncode := some code }) } := by
  obtain ⟨hc, hs⟩ := h
  have hface (j : ℕ) : (s.processes.modify pid ({ · with returncode := some code }))[j]? =
      if pid = j then some { p with returncode := some code } else s.processes[j]? := by
    rw [List.getElem?_modify]
    by_cases hj : pid = j
    · simp [← hj, hp]
    · cases s.processes[j]? <;> simp [hj]
  have hsame : s.Same
      { s with processes := s.processes.modify pid ({ · with returncode := some code }) } := by
    refine ⟨rfl, rfl, rfl, le_rfl, ?_⟩
    intro h q hq
    obtain ⟨j, hj⟩ := List.getElem?_of_mem hq
    rw [hface] at hj
    split_ifs at hj with hpj
    · cases hj
      exact .inl rfl
    · exact h q (List.mem_of_getElem? hj)
  refine ⟨?_, hsame.at hs⟩
  constructor
  · intro i q hq
    obtain ⟨hi, old, hold⟩ := hc.child i q hq
    refine ⟨hi, ?_⟩
    unfold faces at hold ⊢
    rw [List.getElem?_map] at hold ⊢
    obtain ⟨r, hr, hr'⟩ := Option.map_eq_some_iff.mp hold
    rw [hface]
    split_ifs with hpq
    · subst hpq
      rw [hp] at hr
      cases hr
      exact ⟨some code, by simp [(Prod.mk.inj hr').1]⟩
    · exact ⟨old, by simp [hr, hr']⟩
  · intro i q hq
    apply hc.running i q
    unfold faces at hq ⊢
    rw [List.getElem?_map] at hq ⊢
    rw [hface] at hq
    split_ifs at hq with hpq
    · simp at hq
    · exact hq
  · exact hc.due
  · exact hc.quiet

theorem Inv.step (h : s.Inv o) {a : Action} (hspared : ¬ s.Stranded a) (ht : s.step o a = some t) :
    t.Inv o := by
  unfold Supervisor.step at ht
  cases a with
  | run => exact h.advance ht
  | fail =>
    obtain ⟨hc, hs⟩ := h
    dsimp only at ht
    split at ht
    · next i dues hstage =>
      cases ht
      have hsame : s.Same { s with failed := true } := ⟨rfl, rfl, rfl, le_rfl, id⟩
      apply Inv.of_at (hsame.core rfl hc)
      match dues with
      | none =>
        by_contra hsettled
        exact hspared ⟨hsettled, i, hstage⟩
      | some (now, rest) => trivial
    · cases ht
  | receive signum =>
    cases ht
    have hsame : s.Same { s with signals := s.signals ++ [signum] } := ⟨rfl, rfl, rfl, le_rfl, id⟩
    exact ⟨hsame.core rfl h.1, hsame.at h.2⟩
  | request =>
    dsimp only at ht
    split_ifs at ht with hlocked
    cases ht
    have hsame : s.requestStop.Same { s.requestStop with asked := true } :=
      ⟨rfl, rfl, rfl, le_rfl, id⟩
    have hat := h.2.requestStop (Bool.eq_false_of_not_eq_true hlocked)
    exact ⟨hsame.core rfl h.1.requestStop, hsame.at hat⟩
  | exit pid code =>
    dsimp only at ht
    split_ifs at ht with hrun
    cases ht
    obtain ⟨p, hp, -⟩ := (Option.any_eq_true _ _).mp hrun
    exact h.exit hp
  | tick elapsed =>
    cases ht
    have hsame : s.Same { s with clock := s.clock + elapsed } :=
      ⟨rfl, rfl, rfl, by simp, id⟩
    exact ⟨hsame.core rfl h.1, hsame.at h.2⟩

theorem inv_initial (clock : ℤ) : (initial clock).Inv o := by
  constructor
  · constructor
    · intro i pid h
      cases h
    · intro i pid h
      simp [faces, initial] at h
    · intro i d h
      cases h
    · intro _ _
      rfl
  · exact ⟨Nat.zero_le _, fun _ _ => rfl, fun _ => rfl, fun _ j hj => absurd hj (Nat.not_lt_zero j)⟩

end Supervisor

end DjangoOx
