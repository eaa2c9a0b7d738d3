import DjangoOx.Worker.Passes

/-! The drain: what `run` leaves behind when it returns, and until when it renews. -/
namespace DjangoOx

open Machine

namespace TimeoutState

/-- The threads that are still inside an attempt that the watchdog gave up on. -/
def aliveStuck (s : TimeoutState) : List (ℕ × Entry) :=
  s.stuck.items.filter fun p => s.runningOn p.1 = some p.2

end TimeoutState

namespace LoopState

/-- The futures that such threads of the pool are running. -/
def stuckFutures (c : LoopConfig) (s : LoopState) : List ℕ :=
  ((s.timeouts.aliveStuck.filter (·.1 < c.concurrency)).map Prod.fst).filterMap s.current

/-- The futures that are not done and that no such thread is running. -/
def healthy (c : LoopConfig) (s : LoopState) : List ℕ :=
  (List.range s.submitted.length).filter fun i => i ∉ s.finished ∧ i ∉ s.stuckFutures c

/-- How many such threads are outside the pool. -/
def stuckOutside (c : LoopConfig) (s : LoopState) : ℕ :=
  (s.timeouts.aliveStuck.filter fun p => ¬ p.1 < c.concurrency).length

variable {c : LoopConfig} {s s' : LoopState}

theorem length_stuckFutures (h : s.FuturesOk c) :
    (s.stuckFutures c).length = (s.timeouts.aliveStuck.filter (·.1 < c.concurrency)).length := by
  unfold stuckFutures
  rw [List.length_filterMap_eq_countP, List.countP_eq_length.mpr, List.length_map]
  intro x hx
  obtain ⟨p, hp, rfl⟩ := List.mem_map.mp hx
  obtain ⟨halive, hin⟩ := List.mem_filter.mp hp
  have hrun : s.timeouts.runningOn p.1 = some p.2 :=
    of_decide_eq_true (List.mem_filter.mp halive).2
  obtain ⟨i, hi⟩ := h.executing p.1 p.2 (of_decide_eq_true hin) hrun
  rw [hi]
  rfl

theorem nodup_stuckFutures (h : s.FuturesOk c) : (s.stuckFutures c).Nodup := by
  have hkeys : (s.timeouts.stuck.items.map Prod.fst).Nodup := s.timeouts.stuck.nodup
  have hsub : ((s.timeouts.aliveStuck.filter (·.1 < c.concurrency)).map Prod.fst).Sublist
      (s.timeouts.stuck.items.map Prod.fst) :=
    (List.filter_sublist.trans List.filter_sublist).map _
  exact (hkeys.sublist hsub).filterMap fun x y i hx hy => h.alone x y i hx hy

theorem mem_stuckFutures (h : s.FuturesOk c) {i : ℕ} (hi : i ∈ s.stuckFutures c) :
    i < s.submitted.length ∧ i ∉ s.finished := by
  obtain ⟨x, -, hx⟩ := List.mem_filterMap.mp hi
  obtain ⟨-, hlt, -, hfin⟩ := h.current x i hx
  exact ⟨hlt, hfin⟩

/-- Where the drain counts no more pending futures than stuck threads, the healthy ones it leaves
are at most as many as the stuck threads that no future stands for. -/
theorem length_healthy_le (h : s.FuturesOk c) {pending : List ℕ}
    (hall : ∀ i < s.submitted.length, i ∉ s.finished → i ∈ pending)
    (hle : pending.length ≤ s.timeouts.stuckAlive) :
    (s.healthy c).length ≤ s.stuckOutside c := by
  have hdisjoint : (s.healthy c ++ s.stuckFutures c).Nodup := by
    refine List.nodup_append.mpr ⟨List.nodup_range.filter _, nodup_stuckFutures h, ?_⟩
    intro i hi j hj hij
    have hnot := (of_decide_eq_true (List.mem_filter.mp hi).2).2
    exact hnot (hij ▸ hj)
  have hsub : s.healthy c ++ s.stuckFutures c ⊆ pending := by
    intro i hi
    rcases List.mem_append.mp hi with hi | hi
    · obtain ⟨hrange, hwhy⟩ := List.mem_filter.mp hi
      exact hall i (List.mem_range.mp hrange) (of_decide_eq_true hwhy).1
    · obtain ⟨hlt, hfin⟩ := mem_stuckFutures h hi
      exact hall i hlt hfin
  have hcount := (List.subperm_of_subset hdisjoint hsub).length_le
  have hsplit : s.timeouts.stuckAlive =
      (s.timeouts.aliveStuck.filter (·.1 < c.concurrency)).length + s.stuckOutside c := by
    have hparts := s.timeouts.aliveStuck.length_eq_length_filter_add (·.1 < c.concurrency)
    have hout : s.stuckOutside c =
        (s.timeouts.aliveStuck.filter fun p => !decide (p.1 < c.concurrency)).length := by
      unfold stuckOutside
      simp only [decide_not]
    rw [hout]
    exact hparts
  rw [List.length_append, length_stuckFutures h] at hcount
  omega

/-- Only the drain's own steps end it. -/
theorem drain_of_ended {a : LoopAction} (h : s.step c a = some s') (hend : s'.stage = .ended)
    (hne : s.stage ≠ .ended) : a = .look ∨ a = .judge := by
  -- Every other step leaves the stage as it is, or goes to another one than the last.
  cases a with
  | look => exact .inl rfl
  | judge => exact .inr rfl
  | timeouts a =>
    obtain ⟨-, h⟩ := Option.ite_none_right_eq_some.mp h
    obtain ⟨t, -, rfl⟩ := Option.map_eq_some_iff.mp h
    exact absurd hend hne
  | inline x attempt =>
    obtain ⟨-, h⟩ := Option.ite_none_right_eq_some.mp h
    obtain ⟨t, -, rfl⟩ := Option.map_eq_some_iff.mp h
    exact absurd hend hne
  | beginInline x | inlineNothing x | requestStop | recycleStop | take x | finish x =>
    simp only [step] at h
    repeat' split at h
    all_goals cases h
    all_goals exact absurd hend hne
  | head orphaned | reap e | dispatch e | recover e | recovered e | prune | beginClaim | claim e
  | decide | recoverOnce completed =>
    simp only [step, fault] at h
    repeat' split at h
    all_goals cases h
    all_goals cases hend

end LoopState

/-- `run` returns once it was asked to stop or a fault left the loop, and renews the leases until
then. All that it claimed is done, unless the worker recycles: then it leaves the futures of stuck
threads, as many healthy ones as there are stuck threads outside its pool, or, once it has been
recycling for the whole of the drain's budget, any. -/
theorem drain_leaves {c : LoopConfig} {s s' : LoopState} {a : LoopAction}
    (h : (loopSystem c).Reachable s) (hs : (loopSystem c).step s a = some s')
    (hend : s'.stage = .ended) (hne : s.stage ≠ .ended) :
    (s.stop = true ∨ s.faulted = true) ∧ s.renewing = true ∧
    (s'.AllDone ∨ s.timeouts.recycling = true ∧
      ((s'.healthy c).length ≤ s'.stuckOutside c ∨
        ∃ t, s.recyclingSince = some t ∧ t + c.recycleDrainBudget ≤ s.timeouts.now)) := by
  have hi := LoopState.inv_of_reachable h
  have hrenews := hi.pass.renews hne
  rcases LoopState.drain_of_ended hs hend hne with rfl | rfl
  · change s.step c .look = some s' at hs
    simp only [LoopState.step] at hs
    split at hs
    · next giveUpAt hstage =>
      refine ⟨hi.pass.left (hstage ▸ rfl), hrenews, .inl ?_⟩
      split at hs
      · next hnil =>
        obtain rfl := Option.some.inj hs
        have hdone : s.AllDone := LoopState.allDone_of_pending_eq_nil hi.futures hnil
        exact hdone
      · obtain rfl := Option.some.inj hs
        cases hend
    · cases hs
  · change s.step c .judge = some s' at hs
    simp only [LoopState.step] at hs
    split at hs
    · next giveUpAt pending hstage =>
      refine ⟨hi.pass.left (hstage ▸ rfl), hrenews, .inr ?_⟩
      have hall := hi.pass.judging giveUpAt pending hstage
      split at hs
      · next hrec =>
        refine ⟨hrec, ?_⟩
        split at hs
        · next hle =>
          obtain rfl := Option.some.inj hs
          have hfew := LoopState.length_healthy_le hi.futures hall hle
          exact .inl hfew
        · split at hs
          · obtain rfl := Option.some.inj hs
            cases hend
          · next t =>
            split at hs
            · next hover =>
              obtain ⟨-, t₀, hsince, rfl⟩ := hi.pass.waited t (hstage ▸ rfl)
              exact .inr ⟨t₀, hsince, hover⟩
            · obtain rfl := Option.some.inj hs
              cases hend
      · obtain rfl := Option.some.inj hs
        cases hend
    · cases hs

/-- One task is stuck past its timeout, another has none and goes on for longer than the budget. -/
def recycled : List LoopAction :=
  [.head false, .reap .done, .dispatch .completed, .recover (.connection true), .prune, .beginClaim,
    .claim (.row (7, 1)), .beginClaim, .claim (.row (8, 1)), .beginClaim, .decide, .take 0, .take 1,
    .timeouts (.enter 0 (7, 1)), .timeouts (.arm 0 5 true), .timeouts (.register 0),
    .timeouts (.enter 1 (8, 1)), .timeouts (.tick 5), .timeouts .fireDue, .timeouts (.tick 2),
    .timeouts .fireDue, .timeouts .handleStuck, .recycleStop, .head false, .recoverOnce true, .look,
    .judge, .look, .timeouts (.tick 10)]

theorem drain_leaves_recycled :
    ∃ s s' t, (loopSystem batchOfTwo).run newWorker recycled = some s ∧
      (loopSystem batchOfTwo).step s .judge = some s' ∧ s'.healthy batchOfTwo = [1] ∧
      s.recyclingSince = some t ∧ t + 10 ≤ s.timeouts.now := by
  have hrun : ((loopSystem batchOfTwo).run newWorker recycled).bind (fun s =>
      ((loopSystem batchOfTwo).step s .judge).map fun s' =>
        (s.stage, s'.stage, s'.finished, s'.healthy batchOfTwo, s'.stuckOutside batchOfTwo)) =
      some (.judging (some 17) [1, 0], .ended, [], [1], 0) := by decide +kernel
  obtain ⟨s, hs, hmap⟩ := Option.bind_eq_some_iff.mp hrun
  obtain ⟨s', hstep, hfacts⟩ := Option.map_eq_some_iff.mp hmap
  simp only [Prod.mk.injEq] at hfacts
  obtain ⟨hstage, hend, hfin, hhealthy, hout⟩ := hfacts
  have hreach := System.Reachable.of_run (M := loopSystem batchOfTwo) newWorker_start hs
  have hne : s.stage ≠ .ended := by
    rw [hstage]
    exact nofun
  have hone : (s'.healthy batchOfTwo).length = 1 := by rw [hhealthy]; rfl
  rcases (drain_leaves hreach hstep hend hne).2.2 with hdone | ⟨-, hfew | ⟨t, hsince, hover⟩⟩
  · have hmem : 1 ∈ s'.healthy batchOfTwo := by rw [hhealthy]; exact List.mem_singleton.mpr rfl
    have hlt := List.mem_range.mp (List.mem_filter.mp hmem).1
    have hdone' := hdone 1 hlt
    rw [hfin] at hdone'
    cases hdone'
  · omega
  · exact ⟨s, s', t, hs, hstep, hhealthy, hsince, hover⟩

end DjangoOx
