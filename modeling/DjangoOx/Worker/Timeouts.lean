import DjangoOx.Worker.Watchdog

/-! Where `TaskTimeout` lands: in the call whose deadline has passed, once, and never in what the
thread does after it. -/
namespace DjangoOx

open Machine

/-- What holds between a thread, its watch and its pending exception. -/
structure CallOk (grace now : ℕ) (stage : ThreadStage) (watch : Option Watch) (pending : Bool)
    (landed : ℕ) (running : Option Entry) : Prop where
  idle : running = none ↔ stage = .idle
  armed : ∀ a, stage.watch? = some a →
    running = some a.attempt ∧ a.deadline = a.started + a.timeout ∧ a.fired = false
  registered : ∀ w, watch = some w → ∃ a, stage.registered? = some a ∧ w.Of a
  fired : ∀ w, watch = some w → w.fired = true → w.deadline + grace ≤ w.graceAt
  pending : pending = true → landed = 0 ∧ (∀ w, watch = some w → w.fired = true) ∧
    ∃ a, stage.guarded? = some a ∧ a.injectable = true ∧ a.deadline ≤ now
  once : landed ≤ 1
  spent : ∀ w, watch = some w → landed = 1 → w.fired = true
  again : ∀ a p, stage = .disarming a true p → landed = 1
  unwinding : ∀ a again, stage = .disarming a again .unwinding → landed = 1

/-- The grace of a watch is over. -/
def Watch.GraceOver (w : Watch) (grace now : ℕ) : Prop :=
  w.started + w.timeout + grace ≤ w.graceAt ∧ w.graceAt ≤ now

namespace TimeoutState

structure Inv (grace : ℕ) (s : TimeoutState) : Prop where
  call : ∀ x, CallOk grace s.now (s.stages x) (s.watches.get? x) (s.pending x) (s.landed x)
    (s.runningOn x)
  holder : ∀ x, s.holder = some x ↔ (s.stages x).HoldsLock = true
  batch : ∀ p ∈ s.batch, p.2.GraceOver grace s.now
  entered : s.entered.Nodup
  running : ∀ x e, s.runningOn x = some e → e ∈ s.entered
  astray : s.astray = []

end TimeoutState

namespace ThreadStage

theorem land?_of_guarded {stage : ThreadStage} {a : Watch} (h : stage.guarded? = some a) :
    ∃ stage', stage.land? = some stage' ∧ stage'.watch? = some a ∧
      stage'.HoldsLock = stage.HoldsLock ∧ stage' ≠ .idle ∧
      (stage'.registered? = some a ∨ stage'.registered? = stage.registered?) := by
  unfold guarded? at h
  split at h
  · next w =>
    obtain rfl := Option.some.inj h
    exact ⟨_, rfl, rfl, rfl, nofun, .inl rfl⟩
  · cases h
  · next w p hp =>
    obtain rfl := Option.some.inj h
    cases p with
    | entry => exact ⟨_, rfl, rfl, rfl, nofun, .inl rfl⟩
    | held => exact ⟨_, rfl, rfl, rfl, nofun, .inl rfl⟩
    | popped => exact ⟨_, rfl, rfl, rfl, nofun, .inl rfl⟩
    | released => exact ⟨_, rfl, rfl, rfl, nofun, .inl rfl⟩
    | unwinding => exact absurd rfl hp
  · cases h

theorem guarded?_of_registered {stage : ThreadStage} {a : Watch} (h : stage.registered? = some a)
    (hlock : stage.HoldsLock = false) (hfirst : ∀ a p, stage ≠ .disarming a true p) :
    stage.guarded? = some a := by
  unfold registered? at h
  split at h
  · exact h
  · next w again =>
    cases again with
    | false => exact h
    | true => exact absurd rfl (hfirst _ _)
  · cases hlock
  · cases hlock
  · cases h

theorem watch?_of_registered {stage : ThreadStage} {a : Watch} (h : stage.registered? = some a) :
    stage.watch? = some a := by
  unfold registered? at h
  split at h
  · exact h
  · exact h
  · exact h
  · exact h
  · cases h

theorem watch?_of_guarded {stage : ThreadStage} {a : Watch} (h : stage.guarded? = some a) :
    stage.watch? = some a := by
  unfold guarded? at h
  split at h
  · exact h
  · cases h
  · exact h
  · cases h

end ThreadStage

namespace CallOk

variable {grace now now' : ℕ} {stage : ThreadStage} {watch : Option Watch} {pending : Bool}
  {landed : ℕ} {running : Option Entry}

theorem later (h : CallOk grace now stage watch pending landed running) (hn : now ≤ now') :
    CallOk grace now' stage watch pending landed running where
  __ := h
  pending hp := by
    obtain ⟨hl, hf, a, ha, hi, hd⟩ := h.pending hp
    exact ⟨hl, hf, a, ha, hi, by omega⟩

/-- Nothing is in the table for a thread outside its call. -/
theorem watch_none (h : CallOk grace now stage watch pending landed running)
    (hs : stage.registered? = none) : watch = none := by
  cases watch with
  | none => rfl
  | some w =>
    obtain ⟨a, ha, -⟩ := h.registered w rfl
    rw [hs] at ha
    cases ha

/-- Nothing is pending outside the body of a call and the first `_disarm` after it. -/
theorem quiet (h : CallOk grace now stage watch pending landed running)
    (hs : stage.guarded? = none) : pending = false := by
  cases pending with
  | false => rfl
  | true =>
    obtain ⟨-, -, a, ha, -⟩ := h.pending rfl
    rw [hs] at ha
    cases ha

/-- A thread outside its call, with no watch and nothing pending. -/
theorem of_outside {r : Option Entry} (hidle : r = none ↔ stage = .idle)
    (hw : stage.watch? = none) (h : landed ≤ 1) : CallOk grace now stage none false landed r where
  idle := hidle
  armed a ha := by
    rw [hw] at ha
    cases ha
  registered := nofun
  fired := nofun
  pending := nofun
  once := h
  spent := nofun
  again a p hs := by
    rw [hs] at hw
    cases hw
  unwinding a again hs := by
    rw [hs] at hw
    cases hw

theorem arm {e : Entry} (h : CallOk grace now .executing watch pending landed (some e))
    (timeout : ℕ) (injectable : Bool) :
    CallOk grace now (.arming ⟨e, timeout, now, now + timeout, injectable, false, 0⟩) watch pending
      landed (some e) := by
  rw [h.watch_none rfl, h.quiet rfl]
  constructor
  · exact ⟨nofun, nofun⟩
  · intro a ha
    obtain rfl := Option.some.inj ha
    exact ⟨rfl, rfl, rfl⟩
  · exact nofun
  · exact nofun
  · exact nofun
  · exact h.once
  · exact nofun
  · exact nofun
  · exact nofun

theorem register {a : Watch} (h : CallOk grace now (.arming a) watch pending landed running) :
    CallOk grace now (.calling a) (some a) pending 0 running := by
  obtain ⟨hrun, hdead, hfired⟩ := h.armed a rfl
  rw [h.quiet rfl]
  constructor
  · rw [hrun]
    exact ⟨nofun, nofun⟩
  · intro a' ha
    obtain rfl := Option.some.inj ha
    exact ⟨hrun, hdead, hfired⟩
  · intro w hw
    obtain rfl := Option.some.inj hw
    exact ⟨_, rfl, .refl _⟩
  · intro w hw hf
    obtain rfl := Option.some.inj hw
    rw [hfired] at hf
    cases hf
  · exact nofun
  · omega
  · exact fun _ _ => nofun
  · exact nofun
  · exact nofun

/-- The steps of a call that leave the watch, the exception and what it has done as they are. -/
theorem move {a : Watch} (h : CallOk grace now stage watch pending landed running)
    {stage' : ThreadStage} (hw : stage.watch? = some a) (hw' : stage'.watch? = some a)
    (hreg : stage'.registered? = stage.registered?) (hguard : stage'.guarded? = stage.guarded?)
    (hagain : ∀ a' p, stage' = .disarming a' true p → landed = 1)
    (hunwind : ∀ a' again, stage' = .disarming a' again .unwinding → landed = 1) :
    CallOk grace now stage' watch pending landed running where
  idle := by
    rw [(h.armed a hw).1]
    refine ⟨nofun, fun hs => ?_⟩
    rw [hs] at hw'
    cases hw'
  armed a' ha := h.armed a' (by rw [hw, ← hw', ha])
  registered w hget := by rw [hreg]; exact h.registered w hget
  fired := h.fired
  pending hp := by rw [hguard]; exact h.pending hp
  once := h.once
  spent := h.spent
  again := hagain
  unwinding := hunwind

/-- The entry leaves the table. -/
theorem pop {a : Watch} {again : Bool}
    (h : CallOk grace now (.disarming a again .held) watch pending landed running) :
    CallOk grace now (.disarming a again .popped) none pending landed running where
  idle := by
    rw [(h.armed a rfl).1]
    exact ⟨nofun, nofun⟩
  armed := h.armed
  registered := nofun
  fired := nofun
  pending hp := by
    obtain ⟨hl, -, a', ha, hi⟩ := h.pending hp
    refine ⟨hl, nofun, a', ?_, hi⟩
    cases again with
    | false => exact ha
    | true => cases ha
  once := h.once
  spent := nofun
  again a' p hs := by
    cases hs
    exact h.again a .held rfl
  unwinding := nofun

theorem land {stage' : ThreadStage} (h : CallOk grace now stage watch true landed running)
    (hl : stage.land? = some stage') : CallOk grace now stage' watch false (landed + 1) running := by
  obtain ⟨hzero, hfired, a, hg, -, -⟩ := h.pending rfl
  obtain ⟨_, hl', hw', -, hidle, hreg⟩ := ThreadStage.land?_of_guarded hg
  obtain rfl := Option.some.inj (hl.symm.trans hl')
  have hw := ThreadStage.watch?_of_guarded hg
  constructor
  · rw [(h.armed a hw).1]
    exact ⟨nofun, fun hs => absurd hs hidle⟩
  · intro a' ha
    exact h.armed a' (by rw [hw, ← hw', ha])
  · intro w hget
    obtain ⟨a', ha', hof⟩ := h.registered w hget
    rcases hreg with hsome | hsame
    · have hwa := ThreadStage.watch?_of_registered ha'
      obtain rfl := Option.some.inj (hwa.symm.trans hw)
      exact ⟨a', hsome, hof⟩
    · exact ⟨a', hsame.trans ha', hof⟩
  · exact h.fired
  · exact nofun
  · omega
  · exact fun w hget _ => hfired w hget
  · exact fun _ _ _ => by omega
  · exact fun _ _ _ => by omega

/-- The watch leaves the table while the thread stays where it is. -/
theorem drop (h : CallOk grace now stage watch pending landed running) :
    CallOk grace now stage none pending landed running where
  __ := h
  registered := nofun
  fired := nofun
  pending hp := ⟨(h.pending hp).1, nofun, (h.pending hp).2.2⟩
  spent := nofun

/-- The deadline of a watch fires. -/
theorem fire {w : Watch} (h : CallOk grace now stage (some w) pending landed running)
    (hlock : stage.HoldsLock = false) (hf : w.fired = false) (hd : w.deadline ≤ now) :
    CallOk grace now stage (some (w.fire now grace)) (if w.injectable then true else pending) landed
      running := by
  have hlanded : landed = 0 := by
    have := h.once
    by_contra hne
    have hspent := h.spent w rfl (by omega)
    rw [hf] at hspent
    cases hspent
  have hpending : pending = false := by
    cases pending with
    | false => rfl
    | true =>
      have hspent := (h.pending rfl).2.1 w rfl
      rw [hf] at hspent
      cases hspent
  obtain ⟨a, ha, hof⟩ := h.registered w rfl
  constructor
  · exact h.idle
  · exact h.armed
  · intro w' hw'
    obtain rfl := Option.some.inj hw'
    exact ⟨a, ha, hof.fire now grace⟩
  · intro w' hw' _
    obtain rfl := Option.some.inj hw'
    show w.deadline + grace ≤ now + grace
    omega
  · intro hp
    have hinj : w.injectable = true := by
      by_contra hne
      rw [if_neg hne, hpending] at hp
      cases hp
    refine ⟨hlanded, ?_, a, ?_, ?_, ?_⟩
    · intro w' hw'
      obtain rfl := Option.some.inj hw'
      rfl
    · -- The lock is free and nothing has landed: the thread is in the body or about to disarm.
      exact ThreadStage.guarded?_of_registered ha hlock fun a p hs => by
        have hspent := h.again a p hs
        omega
    · rw [← hof.2.2.2.2]
      exact hinj
    · rw [← hof.2.2.2.1]
      exact hd
  · exact h.once
  · intro w' hw' _
    obtain rfl := Option.some.inj hw'
    rfl
  · exact h.again
  · exact h.unwinding

end CallOk

namespace TimeoutState

variable {grace : ℕ} {s s' : TimeoutState} {x : ℕ}

/-- Nobody but `x` moves, and the batch stands. -/
structure Moves (s s' : TimeoutState) (x : ℕ) : Prop where
  now : s'.now = s.now
  batch : s'.batch = s.batch
  stages : ∀ y, y ≠ x → s'.stages y = s.stages y
  watches : ∀ y, y ≠ x → s'.watches.get? y = s.watches.get? y
  pending : ∀ y, y ≠ x → s'.pending y = s.pending y
  landed : ∀ y, y ≠ x → s'.landed y = s.landed y
  runningOn : ∀ y, y ≠ x → s'.runningOn y = s.runningOn y

theorem Moves.setStage (s : TimeoutState) (x : ℕ) (stage : ThreadStage) :
    Moves s (s.setStage x stage) x where
  now := rfl
  batch := rfl
  stages _ hy := Function.update_of_ne hy _ _
  watches _ _ := rfl
  pending _ _ := rfl
  landed _ _ := rfl
  runningOn _ _ := rfl

@[simp] theorem stages_setStage (s : TimeoutState) (x : ℕ) (stage : ThreadStage) :
    (s.setStage x stage).stages x = stage :=
  Function.update_self _ _ _

theorem Inv.call_of_moves (hi : s.Inv grace) (hm : Moves s s' x)
    (hx : CallOk grace s.now (s'.stages x) (s'.watches.get? x) (s'.pending x) (s'.landed x)
      (s'.runningOn x)) (y : ℕ) :
    CallOk grace s'.now (s'.stages y) (s'.watches.get? y) (s'.pending y) (s'.landed y)
      (s'.runningOn y) := by
  rw [hm.now]
  by_cases hy : y = x
  · rw [hy]
    exact hx
  · rw [hm.stages y hy, hm.watches y hy, hm.pending y hy, hm.landed y hy, hm.runningOn y hy]
    exact hi.call y

/-- A thread moves, and the lock stays where it is. -/
theorem Inv.of_moves (hi : s.Inv grace) (hm : Moves s s' x)
    (hx : CallOk grace s.now (s'.stages x) (s'.watches.get? x) (s'.pending x) (s'.landed x)
      (s'.runningOn x))
    (hholder : s'.holder = s.holder) (hlock : (s'.stages x).HoldsLock = (s.stages x).HoldsLock)
    (hentered : s'.entered.Nodup) (hrunning : ∀ y e, s'.runningOn y = some e → e ∈ s'.entered)
    (hastray : s'.astray = []) : s'.Inv grace where
  call := hi.call_of_moves hm hx
  holder y := by
    rw [hholder, hi.holder y]
    by_cases hy : y = x
    · rw [hy, hlock]
    · rw [hm.stages y hy]
  batch := by rw [hm.batch, hm.now]; exact hi.batch
  entered := hentered
  running := hrunning
  astray := hastray

/-- A thread moves, nothing is entered and nothing lands. -/
theorem Inv.of_call (hi : s.Inv grace) (hm : Moves s s' x)
    (hx : CallOk grace s.now (s'.stages x) (s'.watches.get? x) (s'.pending x) (s'.landed x)
      (s'.runningOn x))
    (hholder : s'.holder = s.holder) (hlock : (s'.stages x).HoldsLock = (s.stages x).HoldsLock)
    (hentered : s'.entered = s.entered) (hrunning : s'.runningOn = s.runningOn)
    (hastray : s'.astray = s.astray) : s'.Inv grace := by
  have hrun : ∀ y e, s'.runningOn y = some e → e ∈ s'.entered := by
    rw [hrunning, hentered]
    exact hi.running
  exact hi.of_moves hm hx hholder hlock (hentered ▸ hi.entered) hrun (hastray.trans hi.astray)

/-- The thread takes the lock, or gives it back. -/
theorem Inv.of_lock (hi : s.Inv grace) (hm : Moves s s' x)
    (hx : CallOk grace s.now (s'.stages x) (s'.watches.get? x) (s'.pending x) (s'.landed x)
      (s'.runningOn x))
    (hbefore : ∀ y, y ≠ x → s.holder ≠ some y)
    (hholder : s'.holder = if (s'.stages x).HoldsLock then some x else none)
    (hentered : s'.entered = s.entered) (hrunning : s'.runningOn = s.runningOn)
    (hastray : s'.astray = s.astray) : s'.Inv grace where
  call := hi.call_of_moves hm hx
  holder y := by
    rw [hholder]
    by_cases hy : y = x
    · rw [hy]
      cases (s'.stages x).HoldsLock <;> simp
    · rw [hm.stages y hy, ← hi.holder y]
      constructor
      · intro h
        split at h
        · exact absurd (Option.some.inj h).symm hy
        · cases h
      · exact fun h => absurd h (hbefore y hy)
  batch := by rw [hm.batch, hm.now]; exact hi.batch
  entered := hentered ▸ hi.entered
  running := by
    rw [hrunning, hentered]
    exact hi.running
  astray := hastray.trans hi.astray

/-! One watch of `_fire_due`, and the loop over them. -/

theorem fireOne_watches {p : ℕ × Watch} {y : ℕ} (hy : y ≠ p.1) :
    (s.fireOne grace p).watches.get? y = s.watches.get? y := by
  unfold fireOne
  split
  · rw [show ({ s with watches := _, pending := _ } : TimeoutState).watches = _ from rfl,
      Dict.get?_set, if_neg hy]
  · split
    · show (s.watches.erase p.1).get? y = _
      rw [Dict.get?_erase, if_neg hy]
    · rfl

/-- A watch whose deadline has passed. -/
theorem Inv.fire (hi : s.Inv grace) (hfree : s.holder = none) {w : Watch}
    (hw : s.watches.get? x = some w) (hf : w.fired = false) (hd : w.deadline ≤ s.now) :
    { s with
      watches := s.watches.set x (w.fire s.now grace)
      pending := if w.injectable then Function.update s.pending x true else s.pending }.Inv
        grace := by
  have hlock : (s.stages x).HoldsLock = false := by
    have hx := hi.holder x
    rw [hfree] at hx
    simpa using hx
  have hcall := hi.call x
  rw [hw] at hcall
  have hfire := hcall.fire hlock hf hd
  refine hi.of_call (?_ : Moves s _ x) ?_ rfl rfl rfl rfl rfl
  · constructor
    · rfl
    · rfl
    · exact fun _ _ => rfl
    · intro y hy
      show (s.watches.set x _).get? y = _
      rw [Dict.get?_set, if_neg hy]
    · intro y hy
      show (if w.injectable then Function.update s.pending x true else s.pending) y = _
      split
      · exact Function.update_of_ne hy _ _
      · rfl
    · exact fun _ _ => rfl
    · exact fun _ _ => rfl
  · have hget : (s.watches.set x (w.fire s.now grace)).get? x = some (w.fire s.now grace) := by
      rw [Dict.get?_set, if_pos rfl]
    have hpend : (if w.injectable then Function.update s.pending x true else s.pending) x =
        if w.injectable then true else s.pending x := by
      split
      · exact Function.update_self _ _ _
      · rfl
    show CallOk grace s.now (s.stages x) ((s.watches.set x (w.fire s.now grace)).get? x)
      ((if w.injectable then Function.update s.pending x true else s.pending) x) (s.landed x)
      (s.runningOn x)
    rw [hget, hpend]
    exact hfire

/-- A watch whose grace is over leaves the table. -/
theorem Inv.giveUp (hi : s.Inv grace) {w : Watch} (hw : s.watches.get? x = some w)
    (hf : w.fired = true) (hg : w.graceAt ≤ s.now) :
    { s with watches := s.watches.erase x, batch := s.batch ++ [(x, w)] }.Inv grace := by
  have hcall := hi.call x
  rw [hw] at hcall
  have hover : w.GraceOver grace s.now := by
    obtain ⟨a, ha, hof⟩ := hcall.registered w rfl
    have hdead := (hcall.armed a (ThreadStage.watch?_of_registered ha)).2.1
    have hgrace := hcall.fired w rfl hf
    obtain ⟨-, ht, hs, hd, -⟩ := hof
    exact ⟨by omega, hg⟩
  constructor
  · intro y
    show CallOk grace s.now (s.stages y) ((s.watches.erase x).get? y) (s.pending y) (s.landed y)
      (s.runningOn y)
    rw [Dict.get?_erase]
    by_cases hy : y = x
    · rw [if_pos hy, hy]
      exact hcall.drop
    · rw [if_neg hy]
      exact hi.call y
  · exact hi.holder
  · intro p hp
    rcases List.mem_append.mp hp with hold | hnew
    · exact hi.batch p hold
    · obtain rfl := List.mem_singleton.mp hnew
      exact hover
  · exact hi.entered
  · exact hi.running
  · exact hi.astray

theorem Inv.fireOne (hi : s.Inv grace) (hfree : s.holder = none) {p : ℕ × Watch}
    (hp : s.watches.get? p.1 = some p.2) :
    (s.fireOne grace p).Inv grace ∧ (s.fireOne grace p).holder = none := by
  unfold TimeoutState.fireOne
  split
  · next hdue => exact ⟨hi.fire hfree hp hdue.1 hdue.2, hfree⟩
  · split
    · next hover => exact ⟨hi.giveUp hp hover.1 hover.2, hfree⟩
    · exact ⟨hi, hfree⟩

/-- The loop of `_fire_due`: each turn leaves the watches of the later ones as they were read. -/
theorem Inv.foldl_fireOne (l : List (ℕ × Watch)) (hn : (l.map Prod.fst).Nodup)
    (hi : s.Inv grace) (hfree : s.holder = none)
    (hl : ∀ p ∈ l, s.watches.get? p.1 = some p.2) :
    (l.foldl (TimeoutState.fireOne grace) s).Inv grace := by
  induction l generalizing s with
  | nil => exact hi
  | cons p l ih =>
    rw [List.map_cons, List.nodup_cons] at hn
    obtain ⟨hnext, hfree'⟩ := hi.fireOne hfree (hl p (List.mem_cons_self ..))
    refine ih hn.2 hnext hfree' fun q hq => ?_
    have hne : q.1 ≠ p.1 := fun he => hn.1 (he ▸ List.mem_map_of_mem hq)
    rw [fireOne_watches hne]
    exact hl q (List.mem_cons_of_mem _ hq)

theorem Inv.fireDue (hi : s.Inv grace) (hfree : s.holder = none) : (s.fireDue grace).Inv grace :=
  Inv.foldl_fireOne _ s.watches.nodup hi hfree fun _ hp => Dict.get?_eq_some.mpr hp

theorem Inv.tick (hi : s.Inv grace) (d : ℕ) : { s with now := s.now + d }.Inv grace where
  call y := (hi.call y).later (Nat.le_add_right _ _)
  holder := hi.holder
  batch p hp := ⟨(hi.batch p hp).1, (hi.batch p hp).2.trans (Nat.le_add_right _ _)⟩
  entered := hi.entered
  running := hi.running
  astray := hi.astray

theorem Inv.enter (hi : s.Inv grace) {attempt : Entry} (hs : s.stages x = .idle)
    (hnew : attempt ∉ s.entered) :
    { s.setStage x .executing with
      runningOn := Function.update s.runningOn x (some attempt)
      entered := attempt :: s.entered }.Inv grace := by
  have hcall := hi.call x
  rw [hs] at hcall
  refine hi.of_moves (?_ : Moves s _ x) ?_ rfl ?_ ?_ ?_ hi.astray
  · exact { Moves.setStage s x .executing with
      runningOn := fun y hy => Function.update_of_ne hy _ _ }
  · show CallOk grace s.now ((s.setStage x .executing).stages x) (s.watches.get? x) (s.pending x)
      (s.landed x) (Function.update s.runningOn x (some attempt) x)
    rw [stages_setStage, Function.update_self, hcall.watch_none rfl, hcall.quiet rfl]
    exact .of_outside ⟨nofun, nofun⟩ rfl hcall.once
  · show ((s.setStage x .executing).stages x).HoldsLock = _
    rw [stages_setStage, hs]
    rfl
  · exact List.nodup_cons.mpr ⟨hnew, hi.entered⟩
  · intro y e hy
    by_cases hyx : y = x
    · rw [hyx] at hy
      have he : some attempt = some e := (Function.update_self x _ s.runningOn).symm.trans hy
      rw [← Option.some.inj he]
      exact List.mem_cons_self ..
    · have he : s.runningOn y = some e := (Function.update_of_ne hyx _ s.runningOn).symm.trans hy
      exact List.mem_cons_of_mem _ (hi.running y e he)

theorem Inv.leave (hi : s.Inv grace) (hreg : (s.stages x).registered? = none)
    (hg : (s.stages x).guarded? = none) (hlock : (s.stages x).HoldsLock = false) :
    { s.setStage x .idle with runningOn := Function.update s.runningOn x none }.Inv grace := by
  have hcall := hi.call x
  refine hi.of_moves (?_ : Moves s _ x) ?_ rfl ?_ hi.entered ?_ hi.astray
  · exact { Moves.setStage s x .idle with runningOn := fun y hy => Function.update_of_ne hy _ _ }
  · show CallOk grace s.now ((s.setStage x .idle).stages x) (s.watches.get? x) (s.pending x)
      (s.landed x) (Function.update s.runningOn x none x)
    rw [stages_setStage, Function.update_self, hcall.watch_none hreg, hcall.quiet hg]
    exact .of_outside ⟨fun _ => rfl, fun _ => rfl⟩ rfl hcall.once
  · show ((s.setStage x .idle).stages x).HoldsLock = _
    rw [stages_setStage, hlock]
    rfl
  · intro y e hy
    by_cases hyx : y = x
    · rw [hyx] at hy
      cases (Function.update_self x none s.runningOn).symm.trans hy
    · exact hi.running y e ((Function.update_of_ne hyx _ s.runningOn).symm.trans hy)

theorem Inv.land (hi : s.Inv grace) (hp : s.pending x = true) :
    { s.setStage x ((s.stages x).land?.getD (s.stages x)) with
      pending := Function.update s.pending x false
      landed := Function.update s.landed x (s.landed x + 1)
      astray := if (s.stages x).land? = none then x :: s.astray else s.astray }.Inv grace := by
  have hcall := hi.call x
  rw [hp] at hcall
  obtain ⟨-, -, a, hg, -⟩ := hcall.pending rfl
  obtain ⟨stage, hl, -, hlock, -⟩ := ThreadStage.land?_of_guarded hg
  rw [hl, if_neg nofun]
  refine hi.of_call (?_ : Moves s _ x) ?_ rfl ?_ rfl rfl rfl
  · exact { Moves.setStage s x stage with
      pending := fun y hy => Function.update_of_ne hy _ _
      landed := fun y hy => Function.update_of_ne hy _ _ }
  · show CallOk grace s.now ((s.setStage x stage).stages x) (s.watches.get? x)
      (Function.update s.pending x false x) (Function.update s.landed x (s.landed x + 1) x)
      (s.runningOn x)
    rw [stages_setStage, Function.update_self, Function.update_self]
    exact hcall.land hl
  · show ((s.setStage x stage).stages x).HoldsLock = _
    rw [stages_setStage, hlock]

theorem Inv.acquire (hi : s.Inv grace) {a : Watch} {again : Bool}
    (hs : s.stages x = .disarming a again .entry) (hfree : s.holder = none) :
    { s.setStage x (.disarming a again .held) with holder := some x }.Inv grace := by
  have hcall := hi.call x
  rw [hs] at hcall
  refine hi.of_lock (?_ : Moves s _ x) ?_ ?_ ?_ rfl rfl rfl
  · exact { Moves.setStage s x (.disarming a again .held) with }
  · show CallOk grace s.now ((s.setStage x (.disarming a again .held)).stages x) _ _ _ _
    rw [stages_setStage]
    refine hcall.move rfl rfl rfl ?_ ?_ nofun
    · cases again <;> rfl
    · intro a' p he
      cases he
      exact hcall.again a .entry rfl
  · intro y _ hy
    rw [hfree] at hy
    cases hy
  · show some x = if ((s.setStage x (.disarming a again .held)).stages x).HoldsLock then _ else _
    rw [stages_setStage]
    rfl

theorem Inv.pop (hi : s.Inv grace) {a : Watch} {again : Bool}
    (hs : s.stages x = .disarming a again .held) :
    { s.setStage x (.disarming a again .popped) with watches := s.watches.erase x }.Inv grace := by
  have hcall := hi.call x
  rw [hs] at hcall
  refine hi.of_call (?_ : Moves s _ x) ?_ rfl ?_ rfl rfl rfl
  · exact { Moves.setStage s x (.disarming a again .popped) with
      watches := fun y hy => by rw [Dict.get?_erase, if_neg hy] }
  · show CallOk grace s.now ((s.setStage x (.disarming a again .popped)).stages x)
      ((s.watches.erase x).get? x) _ _ _
    rw [stages_setStage, Dict.get?_erase, if_pos rfl]
    exact hcall.pop
  · show ((s.setStage x (.disarming a again .popped)).stages x).HoldsLock = _
    rw [stages_setStage, hs]
    rfl

/-- The lock is given back, after the entry is out or on the way out of an exception. -/
theorem Inv.release (hi : s.Inv grace) {a : Watch} {again' : Bool} {p' : DisarmPoint}
    (hlock : (s.stages x).HoldsLock = true)
    (hlock' : (ThreadStage.disarming a again' p').HoldsLock = false)
    (hcall : CallOk grace s.now (.disarming a again' p') (s.watches.get? x) (s.pending x)
      (s.landed x) (s.runningOn x)) :
    { s.setStage x (.disarming a again' p') with holder := none }.Inv grace := by
  have hheld := (hi.holder x).mpr hlock
  refine hi.of_lock (?_ : Moves s _ x) ?_ ?_ ?_ rfl rfl rfl
  · exact { Moves.setStage s x (.disarming a again' p') with }
  · show CallOk grace s.now ((s.setStage x (.disarming a again' p')).stages x) _ _ _ _
    rw [stages_setStage]
    exact hcall
  · intro y hy hy'
    rw [hheld] at hy'
    exact hy (Option.some.inj hy').symm
  · show none = if ((s.setStage x (.disarming a again' p')).stages x).HoldsLock then _ else _
    rw [stages_setStage, hlock']
    rfl

theorem Inv.step {b : TimeoutAction} (hi : s.Inv grace) (h : s.step grace b = some s') :
    s'.Inv grace := by
  cases b with
  | tick d =>
    obtain rfl := Option.some.inj h
    exact hi.tick d
  | enter x attempt =>
    obtain ⟨⟨hs, hnew⟩, h⟩ := Option.ite_none_right_eq_some.mp h
    obtain rfl := Option.some.inj h
    exact hi.enter hs fun hmem => hnew attempt hmem rfl
  | arm x timeout injectable =>
    simp only [TimeoutState.step] at h
    split at h
    · next attempt hs hrun =>
      obtain rfl := Option.some.inj h
      have hcall := hi.call x
      rw [hs, hrun] at hcall
      refine hi.of_call (Moves.setStage s x _) ?_ rfl ?_ rfl rfl rfl
      · rw [stages_setStage]
        show CallOk _ _ _ (s.watches.get? x) (s.pending x) (s.landed x) (s.runningOn x)
        rw [hrun]
        exact hcall.arm timeout injectable
      · rw [stages_setStage, hs]
        rfl
    · cases h
  | register x =>
    simp only [TimeoutState.step] at h
    split at h
    · next w hs =>
      obtain ⟨hfree, h⟩ := Option.ite_none_right_eq_some.mp h
      obtain rfl := Option.some.inj h
      have hcall := hi.call x
      rw [hs] at hcall
      refine hi.of_call (?_ : Moves s _ x) ?_ rfl ?_ rfl rfl rfl
      · exact { Moves.setStage s x (.calling w) with
          watches := fun y hy => by rw [Dict.get?_set, if_neg hy]
          landed := fun y hy => Function.update_of_ne hy _ _ }
      · show CallOk grace s.now ((s.setStage x (.calling w)).stages x)
          ((s.watches.set x w).get? x) (s.pending x) (Function.update s.landed x 0 x)
          (s.runningOn x)
        rw [stages_setStage, Dict.get?_set, if_pos rfl, Function.update_self]
        exact hcall.register
      · show ((s.setStage x (.calling w)).stages x).HoldsLock = _
        rw [stages_setStage, hs]
        rfl
    · cases h
  | endCall x =>
    simp only [TimeoutState.step] at h
    split at h
    · next w hs =>
      obtain rfl := Option.some.inj h
      have hcall := hi.call x
      rw [hs] at hcall
      refine hi.of_call (Moves.setStage s x _) ?_ rfl ?_ rfl rfl rfl
      · rw [stages_setStage]
        refine hcall.move rfl rfl rfl rfl ?_ ?_
        · intro _ _ he
          cases he
        · intro _ _ he
          cases he
      · rw [stages_setStage, hs]
        rfl
    · cases h
  | acquire x =>
    simp only [TimeoutState.step] at h
    split at h
    · next w again hs =>
      obtain ⟨hfree, h⟩ := Option.ite_none_right_eq_some.mp h
      obtain rfl := Option.some.inj h
      exact hi.acquire hs hfree
    · cases h
  | pop x =>
    simp only [TimeoutState.step] at h
    split at h
    · next w again hs =>
      obtain rfl := Option.some.inj h
      exact hi.pop hs
    · cases h
  | release x =>
    simp only [TimeoutState.step] at h
    have hcall := hi.call x
    split at h
    · next w again hs =>
      obtain rfl := Option.some.inj h
      rw [hs] at hcall
      refine hi.release (hs ▸ rfl) rfl ?_
      refine hcall.move rfl rfl rfl ?_ ?_ ?_
      · cases again <;> rfl
      · intro a' p he
        cases he
        exact hcall.again w .popped rfl
      · intro _ _ he
        cases he
    · next w again hs =>
      obtain rfl := Option.some.inj h
      rw [hs] at hcall
      have hlanded := hcall.unwinding w again rfl
      refine hi.release (hs ▸ rfl) rfl ?_
      refine hcall.move rfl rfl rfl ?_ (fun _ _ _ => hlanded) ?_
      · cases again <;> rfl
      · intro _ _ he
        cases he
    · cases h
  | flush x =>
    simp only [TimeoutState.step] at h
    split at h
    · next w again hs =>
      obtain ⟨hp, h⟩ := Option.ite_none_right_eq_some.mp h
      obtain rfl := Option.some.inj h
      have hcall := hi.call x
      rw [hs] at hcall
      refine hi.of_call (Moves.setStage s x _) ?_ rfl ?_ rfl rfl rfl
      · rw [stages_setStage]
        show CallOk _ _ _ (s.watches.get? x) (s.pending x) (s.landed x) (s.runningOn x)
        rw [hcall.watch_none rfl, hp]
        refine .of_outside ?_ rfl hcall.once
        rw [(hcall.armed w rfl).1]
        exact iff_of_false (Option.some_ne_none _) ThreadStage.noConfusion
      · rw [stages_setStage, hs]
        rfl
    · cases h
  | leave x =>
    simp only [TimeoutState.step] at h
    split at h
    · next hs =>
      obtain rfl := Option.some.inj h
      exact hi.leave (hs ▸ rfl) (hs ▸ rfl) (hs ▸ rfl)
    · next hs =>
      obtain rfl := Option.some.inj h
      exact hi.leave (hs ▸ rfl) (hs ▸ rfl) (hs ▸ rfl)
    · cases h
  | land x =>
    obtain ⟨hp, h⟩ := Option.ite_none_right_eq_some.mp h
    obtain rfl := Option.some.inj h
    exact hi.land hp
  | fireDue =>
    obtain ⟨⟨hfree, -⟩, h⟩ := Option.ite_none_right_eq_some.mp h
    obtain rfl := Option.some.inj h
    exact hi.fireDue hfree
  | handleStuck =>
    simp only [TimeoutState.step] at h
    split at h
    · next x w batch hb =>
      obtain rfl := Option.some.inj h
      exact { hi with batch := fun p hp => hi.batch p (hb ▸ List.mem_cons_of_mem _ hp) }
    · cases h

theorem inv_of_start (h : s.Start) : s.Inv grace := by
  obtain ⟨hall, hholder, hwatches, -, hbatch, -, hentered, hastray⟩ := h
  constructor
  · intro x
    obtain ⟨hs, hp, hr, hl⟩ := hall x
    rw [hs, hp, hr, hl, hwatches]
    exact .of_outside ⟨fun _ => rfl, fun _ => rfl⟩ rfl (Nat.zero_le _)
  · intro x
    rw [hholder, (hall x).1]
    exact ⟨nofun, nofun⟩
  · rw [hbatch]
    exact nofun
  · rw [hentered]
    exact List.nodup_nil
  · intro x e hx
    rw [(hall x).2.2.1] at hx
    cases hx
  · exact hastray

theorem inv_of_reachable (h : (timeoutSystem grace).Reachable s) : s.Inv grace :=
  h.invariant (Inv grace) (fun _ hs => inv_of_start hs) fun _ _ _ hi hs => hi.step hs

end TimeoutState

section

variable {grace : ℕ} {s : TimeoutState}

/-- Whoever holds the watch lock is in `_disarm` and about to give it back. -/
theorem TimeoutState.Inv.gives_back (hi : s.Inv grace) {x : ℕ} (hx : s.holder = some x) :
    ∃ b s', (b = .pop x ∨ b = .release x) ∧ s.step grace b = some s' := by
  have hlock := (hi.holder x).mp hx
  unfold ThreadStage.HoldsLock at hlock
  split at hlock
  · next a again hs => exact ⟨.pop x, _, .inl rfl, by
      simp only [TimeoutState.step, hs]
      rfl⟩
  · next a again hs => exact ⟨.release x, _, .inr rfl, by
      simp only [TimeoutState.step, hs]
      rfl⟩
  · next a again hs => exact ⟨.release x, _, .inr rfl, by
      simp only [TimeoutState.step, hs]
      rfl⟩
  · cases hlock

/-- Nothing but the end of `_handle_stuck` sets a worker recycling. -/
theorem TimeoutState.handleStuck_of_recycling {b : TimeoutAction} (h : s.step grace b = some s')
    (hbefore : s.recycling = false) (hafter : s'.recycling = true) : b = .handleStuck := by
  cases b with
  | handleStuck => rfl
  | fireDue =>
    obtain ⟨-, h⟩ := Option.ite_none_right_eq_some.mp h
    obtain rfl := Option.some.inj h
    rw [(TimeoutState.fireDue_frame s).2.2, hbefore] at hafter
    cases hafter
  | _ =>
    simp only [TimeoutState.step] at h
    repeat' split at h
    all_goals cases h
    all_goals cases hbefore.symm.trans hafter

/-- An exception lands in the call whose deadline has passed, and no call takes two; outside a call
a thread has nothing pending and no watch; no exception keeps the lock from the watchdog; and the
worker recycles only for a thread still in an attempt whose timeout and grace have passed. -/
theorem timeout_lands_in_its_call (h : (timeoutSystem grace).Reachable s) :
    (∀ x, s.pending x = true → s.landed x = 0 ∧ ∃ a, (s.stages x).guarded? = some a ∧
      s.runningOn x = some a.attempt ∧ a.injectable = true ∧ a.started + a.timeout ≤ s.now) ∧
    (∀ x, s.landed x ≤ 1) ∧ s.astray = [] ∧
    (∀ x, (s.stages x).watch? = none → s.pending x = false ∧ s.watches.get? x = none) ∧
    (∀ x, s.holder = some x →
      ∃ b s', (b = .pop x ∨ b = .release x) ∧ s.step grace b = some s') ∧
    (∀ b s', (timeoutSystem grace).step s b = some s' → s.recycling = false → s'.recycling = true →
      b = .handleStuck ∧ ∃ x w, s.batch.head? = some (x, w) ∧ s.runningOn x = some w.attempt ∧
        s'.stuck.get? x = some w.attempt ∧ w.started + w.timeout + grace ≤ s.now) := by
  have hi := TimeoutState.inv_of_reachable h
  refine ⟨?_, fun x => (hi.call x).once, hi.astray, ?_, fun x => hi.gives_back, ?_⟩
  · intro x hp
    obtain ⟨hzero, -, a, hg, hinj, hdead⟩ := (hi.call x).pending hp
    obtain ⟨hrun, hsum, -⟩ := (hi.call x).armed a (ThreadStage.watch?_of_guarded hg)
    exact ⟨hzero, a, hg, hrun, hinj, hsum ▸ hdead⟩
  · intro x hw
    have hreg : (s.stages x).registered? = none := by
      by_contra hne
      obtain ⟨a, ha⟩ := Option.ne_none_iff_exists'.mp hne
      rw [ThreadStage.watch?_of_registered ha] at hw
      cases hw
    have hguard : (s.stages x).guarded? = none := by
      by_contra hne
      obtain ⟨a, ha⟩ := Option.ne_none_iff_exists'.mp hne
      rw [ThreadStage.watch?_of_guarded ha] at hw
      cases hw
    exact ⟨(hi.call x).quiet hguard, (hi.call x).watch_none hreg⟩
  · intro b s' hs hbefore hafter
    obtain rfl := TimeoutState.handleStuck_of_recycling hs hbefore hafter
    refine ⟨rfl, ?_⟩
    change s.step grace .handleStuck = some s' at hs
    simp only [TimeoutState.step] at hs
    split at hs
    · next x w batch hb =>
      obtain rfl := Option.some.inj hs
      have hrun : s.runningOn x = some w.attempt := by
        simpa [hbefore] using hafter
      have hover := hi.batch (x, w) (hb ▸ List.mem_cons_self ..)
      refine ⟨x, w, hb ▸ rfl, hrun, ?_, hover.1.trans hover.2⟩
      show (if s.runningOn x = some w.attempt then s.stuck.set x w.attempt else s.stuck).get? x = _
      rw [if_pos hrun, Dict.get?_set, if_pos rfl]
    · cases hs

end

/-- No thread, no watch. -/
def noAttempt : TimeoutState where
  now := 0
  stages _ := .idle
  pending _ := false
  holder := none
  watches := .empty
  runningOn _ := none
  stuck := .empty
  batch := []
  recycling := false
  entered := []
  landed _ := 0
  astray := []

theorem noAttempt_start : noAttempt.Start :=
  ⟨fun _ => ⟨rfl, rfl, rfl, rfl⟩, rfl, rfl, rfl, rfl, rfl, rfl, rfl⟩

/-- The deadline passes as the body returns, and the exception lands in `_disarm`, which holds the
lock. -/
theorem timeout_lands_in_its_call_disarming :
    ∃ s, (timeoutSystem 2).Reachable s ∧ s.holder = some 0 ∧ s.landed 0 = 0 ∧
      ∃ a, (s.stages 0).guarded? = some a ∧ a.started + a.timeout ≤ s.now := by
  have hrun : ((timeoutSystem 2).run noAttempt [.enter 0 (7, 1), .arm 0 5 true, .register 0,
      .tick 5, .endCall 0, .fireDue, .acquire 0]).map (fun s => (s.pending 0, s.holder)) =
        some (true, some 0) := by decide +kernel
  obtain ⟨s, hs, hat⟩ := Option.map_eq_some_iff.mp hrun
  obtain ⟨hp, hholder⟩ := Prod.mk.inj hat
  have hreach := System.Reachable.of_run (M := timeoutSystem 2) noAttempt_start hs
  obtain ⟨hzero, a, hg, -, -, hdead⟩ := (timeout_lands_in_its_call hreach).1 0 hp
  exact ⟨s, hreach, hholder, hzero, a, hg, hdead⟩

end DjangoOx
