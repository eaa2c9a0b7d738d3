import DjangoOx.Worker.Loop
import DjangoOx.Worker.Timeouts

/-! The passes of the loop: what is in flight, what a claim comes after, and what the worker knows
when it says that it is done. -/
namespace DjangoOx

open Machine

namespace LoopStage

/-- From the look for a lost claim to the end of the pass. -/
def Looked : LoopStage → Bool
  | .pruning | .claiming _ _ | .asking _ _ | .deciding _ _ _ => true
  | _ => false

/-- A pass that began with nothing in flight and has claimed nothing. -/
def Idle : LoopStage → Bool
  | .claiming true false | .asking true false | .deciding true false _ => true
  | _ => false

/-- Inside a pass. -/
def Inner : LoopStage → Bool
  | .reaping | .dispatching | .recovering | .looking _ => true
  | stage => stage.Looked

/-- Past the loop. -/
def Left : LoopStage → Bool
  | .stopping | .draining _ | .judging _ _ | .ended => true
  | _ => false

def giveUpAt? : LoopStage → Option ℕ
  | .draining t | .judging t _ => t
  | _ => none

end LoopStage

namespace LoopState

/-- Every future of the worker is done. -/
def AllDone (s : LoopState) : Prop := ∀ i < s.submitted.length, i ∈ s.finished

/-- The futures: in the queue, with one pool thread, or done. -/
structure FuturesOk (c : LoopConfig) (s : LoopState) : Prop where
  queued : ∀ i ∈ s.queue, i < s.submitted.length ∧ i ∉ s.finished
  current : ∀ x i, s.current x = some i →
    x < c.concurrency ∧ i < s.submitted.length ∧ i ∉ s.queue ∧ i ∉ s.finished
  alone : ∀ x y i, s.current x = some i → s.current y = some i → x = y
  queue : s.queue.Nodup
  finished : ∀ i ∈ s.finished, i < s.submitted.length
  inFlight : s.inFlight.Nodup
  listed : ∀ i ∈ s.inFlight, i < s.submitted.length
  unfinished : ∀ i < s.submitted.length, i ∉ s.finished → i ∈ s.inFlight
  claimed : s.claimed = s.submitted.length
  executing : ∀ x e, x < c.concurrency → s.timeouts.runningOn x = some e →
    ∃ i, s.current x = some i

/-- What is known from the moment `_complete` is called. -/
def Said (c : LoopConfig) (s : LoopState) : Completion → Prop
  | .maxTasks => s.limitReached c = true
  | .batchEmpty => s.AllDone ∧ s.quiet = true ∧ s.dispatched = true

/-- What the loop knows at each stage of a pass, and of the drain. -/
structure PassOk (c : LoopConfig) (s : LoopState) : Prop where
  bound : s.inFlight.length ≤ c.concurrency
  asking : ∀ idle any, s.stage = .asking idle any →
    s.inFlight.length < c.concurrency ∧ s.limitReached c = false
  limit : ∀ m, c.maxTasks = some m → s.claimed ≤ m
  idle : s.stage.Idle = true → s.AllDone
  quiet : s.stage = .deciding true false true → s.quiet = true
  owed : s.dispatched = !s.dispatchOwed
  completed : ∀ r, s.completed = some r → s.stop = true ∧
    (s.stage = .head ∨ s.stage.Left = true) ∧ s.Said c r
  left : s.stage.Left = true → s.stop = true ∨ s.faulted = true
  renewing : s.renewing = false ↔ s.stage = .ended
  waited : ∀ t, s.stage.giveUpAt? = some t → s.timeouts.recycling = true ∧
    ∃ t₀, s.recyclingSince = some t₀ ∧ t = t₀ + c.recycleDrainBudget
  judging : ∀ t l, s.stage = .judging t l → ∀ i < s.submitted.length, i ∉ s.finished → i ∈ l

/-- A claim that raised has been looked for, or LOCK_TIMEOUT has passed since it raised. -/
def LookedFor (c : LoopConfig) (s : LoopState) : Prop :=
  ∀ t, s.unlookedSince = some t → c.lockTimeout < s.timeouts.now - t

/-- What the looks of `_recover_claims` leave. -/
structure LooksOk (c : LoopConfig) (s : LoopState) : Prop where
  noted : s.LookedFor c ∨ s.unlookedSince = s.unconfirmedAt
  looked : s.stage.Looked = true → s.LookedFor c ∨ s.deferred = true

variable {c : LoopConfig} {s s' : LoopState}

theorem LookedFor.of_eq (h : s.LookedFor c) (hu : s'.unlookedSince = s.unlookedSince)
    (hnow : s.timeouts.now ≤ s'.timeouts.now) : s'.LookedFor c := by
  intro t ht
  have hlate := h t (hu ▸ ht)
  omega

theorem LookedFor.of_eq_none (h : s.unlookedSince = none) : s.LookedFor c := by
  intro t ht
  rw [h] at ht
  cases ht

/-- The looks of a state that differs in nothing they are made of. -/
theorem LooksOk.of_eq (h : s.LooksOk c) (hstage : s'.stage.Looked = true → s.stage.Looked = true)
    (hu : s'.unlookedSince = s.unlookedSince) (ha : s'.unconfirmedAt = s.unconfirmedAt)
    (hd : s'.deferred = s.deferred) (hnow : s.timeouts.now ≤ s'.timeouts.now) : s'.LooksOk c := by
  constructor
  · rcases h.noted with hlate | hsame
    · exact .inl (hlate.of_eq hu hnow)
    · exact .inr (hu.trans (hsame.trans ha.symm))
  · intro hs
    rcases h.looked (hstage hs) with hlate | hmet
    · exact .inl (hlate.of_eq hu hnow)
    · exact .inr (hd.trans hmet)

/-- A look that expires is for the latest claim that was noted. -/
theorem LooksOk.late (h : s.LooksOk c) {since : ℕ} (hsince : s.unconfirmedAt = some since)
    (hlate : c.lockTimeout < s.timeouts.now - since) : s.LookedFor c := by
  rcases h.noted with hlooked | hsame
  · exact hlooked
  · intro t ht
    rw [hsame, hsince] at ht
    obtain rfl := Option.some.inj ht
    exact hlate

/-- The futures of a state that differs in nothing they are made of. -/
theorem FuturesOk.of_eq (h : s.FuturesOk c) (ht : s'.timeouts = s.timeouts)
    (hq : s'.queue = s.queue) (hc : s'.current = s.current) (hs : s'.submitted = s.submitted)
    (hf : s'.finished = s.finished) (hi : s'.inFlight = s.inFlight)
    (hn : s'.claimed = s.claimed) : s'.FuturesOk c := by
  obtain ⟨h1, h2, h3, h4, h5, h6, h7, h8, h9, h10⟩ := h
  constructor
  · rwa [hq, hs, hf]
  · rwa [hq, hc, hs, hf]
  · rwa [hc]
  · rwa [hq]
  · rwa [hs, hf]
  · rwa [hi]
  · rwa [hs, hi]
  · rwa [hs, hf, hi]
  · rwa [hn, hs]
  · rwa [ht, hc]

theorem PassOk.of_inner (hstage : s.stage.Inner = true) (hbound : s.inFlight.length ≤ c.concurrency)
    (hasking : ∀ idle any, s.stage = .asking idle any →
      s.inFlight.length < c.concurrency ∧ s.limitReached c = false)
    (hlimit : ∀ m, c.maxTasks = some m → s.claimed ≤ m)
    (hidle : s.stage.Idle = true → s.AllDone)
    (hquiet : s.stage = .deciding true false true → s.quiet = true)
    (howed : s.dispatched = !s.dispatchOwed) (hnone : s.completed = none)
    (hrenewing : s.renewing = true) : s.PassOk c := by
  have hleft : s.stage.Left = false := by
    cases hs : s.stage <;> simp_all [LoopStage.Inner, LoopStage.Looked, LoopStage.Left]
  have hout : s.stage.giveUpAt? = none ∧ s.stage ≠ .ended ∧ ∀ t l, s.stage ≠ .judging t l := by
    cases hs : s.stage <;> simp_all [LoopStage.Left, LoopStage.giveUpAt?]
  constructor
  · exact hbound
  · exact hasking
  · exact hlimit
  · exact hidle
  · exact hquiet
  · exact howed
  · intro r hr
    rw [hnone] at hr
    cases hr
  · intro h
    rw [hleft] at h
    cases h
  · rw [hrenewing]
    exact ⟨nofun, fun h => absurd h hout.2.1⟩
  · intro t ht
    rw [hout.1] at ht
    cases ht
  · exact fun t l h => absurd h (hout.2.2 t l)

theorem PassOk.of_head (hstage : s.stage = .head) (hbound : s.inFlight.length ≤ c.concurrency)
    (hlimit : ∀ m, c.maxTasks = some m → s.claimed ≤ m) (howed : s.dispatched = !s.dispatchOwed)
    (hsaid : ∀ r, s.completed = some r → s.stop = true ∧ s.Said c r)
    (hrenewing : s.renewing = true) : s.PassOk c := by
  constructor
  · exact hbound
  · rw [hstage]
    exact nofun
  · exact hlimit
  · rw [hstage]
    exact nofun
  · rw [hstage]
    exact nofun
  · exact howed
  · exact fun r hr => ⟨(hsaid r hr).1, .inl hstage, (hsaid r hr).2⟩
  · rw [hstage]
    exact nofun
  · rw [hrenewing, hstage]
    exact ⟨nofun, nofun⟩
  · rw [hstage]
    exact nofun
  · rw [hstage]
    exact nofun

theorem PassOk.of_left (hstage : s.stage.Left = true) (hbound : s.inFlight.length ≤ c.concurrency)
    (hlimit : ∀ m, c.maxTasks = some m → s.claimed ≤ m) (howed : s.dispatched = !s.dispatchOwed)
    (hsaid : ∀ r, s.completed = some r → s.stop = true ∧ s.Said c r)
    (hwhy : s.stop = true ∨ s.faulted = true) (hrenewing : s.renewing = false ↔ s.stage = .ended)
    (hwaited : ∀ t, s.stage.giveUpAt? = some t → s.timeouts.recycling = true ∧
      ∃ t₀, s.recyclingSince = some t₀ ∧ t = t₀ + c.recycleDrainBudget)
    (hjudging : ∀ t l, s.stage = .judging t l → ∀ i < s.submitted.length, i ∉ s.finished → i ∈ l) :
    s.PassOk c := by
  have hout : s.stage.Idle = false ∧
      (∀ idle any, s.stage ≠ .asking idle any) ∧ s.stage ≠ .deciding true false true := by
    cases hs : s.stage <;> simp_all [LoopStage.Left, LoopStage.Idle]
  obtain ⟨hidle, hasking, hdeciding⟩ := hout
  constructor
  · exact hbound
  · exact fun idle any h => absurd h (hasking idle any)
  · exact hlimit
  · rw [hidle]
    exact nofun
  · exact fun h => absurd h hdeciding
  · exact howed
  · exact fun r hr => ⟨(hsaid r hr).1, .inr hstage, (hsaid r hr).2⟩
  · exact fun _ => hwhy
  · exact hrenewing
  · exact hwaited
  · exact hjudging

/-- Nothing is said yet while a pass is on. -/
theorem PassOk.unsaid (hp : s.PassOk c) (h : s.stage.Inner = true) : s.completed = none := by
  cases hr : s.completed with
  | none => rfl
  | some r =>
    obtain ⟨-, hstage, -⟩ := hp.completed r hr
    rcases hstage with hs | hs
    · rw [hs] at h
      cases h
    · cases hst : s.stage <;> simp_all [LoopStage.Inner, LoopStage.Looked, LoopStage.Left]

theorem PassOk.said (hp : s.PassOk c) (r : Completion) (hr : s.completed = some r) :
    s.stop = true ∧ s.Said c r :=
  ⟨(hp.completed r hr).1, (hp.completed r hr).2.2⟩

theorem PassOk.renews (hp : s.PassOk c) (h : s.stage ≠ .ended) : s.renewing = true := by
  cases hr : s.renewing with
  | true => rfl
  | false => exact absurd (hp.renewing.mp hr) h

/-- Steps of everybody but the loop: they finish futures, and may ask the worker to stop. -/
structure Beside (s s' : LoopState) : Prop where
  stage : s'.stage = s.stage
  inFlight : s'.inFlight = s.inFlight
  submitted : s'.submitted = s.submitted
  claimed : s'.claimed = s.claimed
  unconfirmedAt : s'.unconfirmedAt = s.unconfirmedAt
  unlookedSince : s'.unlookedSince = s.unlookedSince
  deferred : s'.deferred = s.deferred
  quiet : s'.quiet = s.quiet
  dispatched : s'.dispatched = s.dispatched
  dispatchOwed : s'.dispatchOwed = s.dispatchOwed
  completed : s'.completed = s.completed
  renewing : s'.renewing = s.renewing
  faulted : s'.faulted = s.faulted
  recyclingSince : s'.recyclingSince = s.recyclingSince
  stop : s.stop = true → s'.stop = true
  finished : ∀ i, i ∈ s.finished → i ∈ s'.finished
  recycling : s.timeouts.recycling = true → s'.timeouts.recycling = true
  now : s.timeouts.now ≤ s'.timeouts.now

theorem AllDone.beside (h : s.AllDone) (hb : Beside s s') : s'.AllDone := by
  intro i hi
  rw [hb.submitted] at hi
  exact hb.finished i (h i hi)

theorem PassOk.beside (hp : s.PassOk c) (hb : Beside s s') : s'.PassOk c := by
  have hlimit : s'.limitReached c = s.limitReached c := by
    unfold limitReached
    rw [hb.claimed]
  constructor
  · rw [hb.inFlight]
    exact hp.bound
  · rw [hb.stage, hb.inFlight, hlimit]
    exact hp.asking
  · rw [hb.claimed]
    exact hp.limit
  · rw [hb.stage]
    exact fun h => (hp.idle h).beside hb
  · rw [hb.stage, hb.quiet]
    exact hp.quiet
  · rw [hb.dispatched, hb.dispatchOwed]
    exact hp.owed
  · intro r hr
    rw [hb.completed] at hr
    obtain ⟨hstop, hstage, hsaid⟩ := hp.completed r hr
    refine ⟨hb.stop hstop, by rwa [hb.stage], ?_⟩
    cases r with
    | maxTasks => exact hlimit.trans hsaid
    | batchEmpty =>
      obtain ⟨hdone, hquiet, hdisp⟩ := hsaid
      exact ⟨hdone.beside hb, hb.quiet.trans hquiet, hb.dispatched.trans hdisp⟩
  · rw [hb.stage]
    intro h
    rcases hp.left h with hstop | hfault
    · exact .inl (hb.stop hstop)
    · exact .inr (hb.faulted.trans hfault)
  · rw [hb.renewing, hb.stage]
    exact hp.renewing
  · rw [hb.stage, hb.recyclingSince]
    exact fun t ht => ⟨hb.recycling (hp.waited t ht).1, (hp.waited t ht).2⟩
  · rw [hb.stage, hb.submitted]
    exact fun t l hl i hi hnot => hp.judging t l hl i hi fun hf => hnot (hb.finished i hf)

/-! What each step does to the futures. -/

theorem FuturesOk.timeouts (h : s.FuturesOk c) {t : TimeoutState} {a : TimeoutAction}
    (ho : TimeoutState.Outlook s.timeouts t a)
    (hmay : ∀ x e, a = .enter x e → x < c.concurrency → ∃ i, s.current x = some i) :
    { s with timeouts := t }.FuturesOk c :=
  { h with
    executing := by
      intro x e hx hrun
      rcases ho.runningOn x with hsame | hnone | ⟨e', ha, -⟩
      · exact h.executing x e hx (hsame.symm.trans hrun)
      · cases hnone.symm.trans hrun
      · exact hmay x e' ha hx }

theorem FuturesOk.take (h : s.FuturesOk c) {x i : ℕ} {queue : List ℕ} (hq : s.queue = i :: queue)
    (hx : x < c.concurrency) (hfree : s.current x = none) :
    { s with queue := queue, current := Function.update s.current x (some i) }.FuturesOk c := by
  have hnodup := List.nodup_cons.mp (hq ▸ h.queue)
  have hi := h.queued i (hq ▸ List.mem_cons_self ..)
  have hcurrent : ∀ y j, Function.update s.current x (some i) y = some j →
      y = x ∧ j = i ∨ y ≠ x ∧ s.current y = some j := by
    intro y j hy
    by_cases hyx : y = x
    · rw [hyx, Function.update_self] at hy
      exact .inl ⟨hyx, (Option.some.inj hy).symm⟩
    · rw [Function.update_of_ne hyx] at hy
      exact .inr ⟨hyx, hy⟩
  constructor
  · exact fun j hj => h.queued j (hq ▸ List.mem_cons_of_mem _ hj)
  · intro y j hy
    rcases hcurrent y j hy with ⟨rfl, rfl⟩ | ⟨-, hy⟩
    · exact ⟨hx, hi.1, hnodup.1, hi.2⟩
    · obtain ⟨hlt, hlen, hnot, hfin⟩ := h.current y j hy
      exact ⟨hlt, hlen, fun hj => hnot (hq ▸ List.mem_cons_of_mem _ hj), hfin⟩
  · intro y z j hy hz
    have htaken : i ∈ s.queue := hq ▸ List.mem_cons_self ..
    rcases hcurrent y j hy with ⟨hyx, hji⟩ | ⟨-, hy'⟩
    · rcases hcurrent z j hz with ⟨hzx, -⟩ | ⟨-, hz'⟩
      · rw [hyx, hzx]
      · exact absurd htaken (hji ▸ (h.current z j hz').2.2.1)
    · rcases hcurrent z j hz with ⟨-, hji⟩ | ⟨-, hz'⟩
      · exact absurd htaken (hji ▸ (h.current y j hy').2.2.1)
      · exact h.alone y z j hy' hz'
  · exact hnodup.2
  · exact h.finished
  · exact h.inFlight
  · exact h.listed
  · exact h.unfinished
  · exact h.claimed
  · intro y e hy hrun
    by_cases hyx : y = x
    · exact ⟨i, by rw [hyx]; exact Function.update_self _ _ _⟩
    · obtain ⟨j, hj⟩ := h.executing y e hy hrun
      exact ⟨j, (Function.update_of_ne hyx _ _).trans hj⟩

theorem FuturesOk.finish (h : s.FuturesOk c) {x i : ℕ} (hx : s.current x = some i)
    (hidle : s.timeouts.runningOn x = none) :
    { s with
      current := Function.update s.current x none
      finished := i :: s.finished }.FuturesOk c := by
  obtain ⟨hlt, hlen, hnot, hfin⟩ := h.current x i hx
  have hcurrent : ∀ y j, Function.update s.current x none y = some j →
      y ≠ x ∧ s.current y = some j := by
    intro y j hy
    by_cases hyx : y = x
    · rw [hyx, Function.update_self] at hy
      cases hy
    · rw [Function.update_of_ne hyx] at hy
      exact ⟨hyx, hy⟩
  constructor
  · intro j hj
    refine ⟨(h.queued j hj).1, fun hmem => ?_⟩
    rcases List.mem_cons.mp hmem with rfl | hold
    · exact hnot hj
    · exact (h.queued j hj).2 hold
  · intro y j hy
    obtain ⟨hne, hy'⟩ := hcurrent y j hy
    obtain ⟨hlt', hlen', hnot', hfin'⟩ := h.current y j hy'
    refine ⟨hlt', hlen', hnot', fun hmem => ?_⟩
    rcases List.mem_cons.mp hmem with heq | hold
    · exact hne (h.alone y x j hy' (heq ▸ hx))
    · exact hfin' hold
  · exact fun y z j hy hz => h.alone y z j (hcurrent y j hy).2 (hcurrent z j hz).2
  · exact h.queue
  · intro j hj
    rcases List.mem_cons.mp hj with rfl | hold
    · exact hlen
    · exact h.finished j hold
  · exact h.inFlight
  · exact h.listed
  · exact fun j hj hnot' => h.unfinished j hj fun hold => hnot' (List.mem_cons_of_mem _ hold)
  · exact h.claimed
  · intro y e hy hrun
    obtain ⟨j, hj⟩ := h.executing y e hy hrun
    refine ⟨j, (Function.update_of_ne ?_ _ _).trans hj⟩
    intro hyx
    rw [hyx] at hrun
    cases hidle.symm.trans hrun

theorem mem_pending {l : List ℕ} {i : ℕ} : i ∈ s.pending l ↔ i ∈ l ∧ i ∉ s.finished := by
  simp [pending]

theorem FuturesOk.prune (h : s.FuturesOk c) (stage : LoopStage) :
    { s with inFlight := s.pending s.inFlight, stage := stage }.FuturesOk c :=
  { h with
    inFlight := h.inFlight.filter _
    listed := fun i hi => h.listed i (mem_pending.mp hi).1
    unfinished := fun i hi hnot => mem_pending.mpr ⟨h.unfinished i hi hnot, hnot⟩ }

theorem FuturesOk.submit (h : s.FuturesOk c) (attempt : Entry) :
    (s.submit attempt).FuturesOk c := by
  have hlen : (s.submitted ++ [attempt]).length = s.submitted.length + 1 := by simp
  have hfresh : s.submitted.length ∉ s.finished := fun hmem => by
    have := h.finished _ hmem
    omega
  constructor
  · intro i hi
    show i < (s.submitted ++ [attempt]).length ∧ i ∉ s.finished
    rw [hlen]
    rcases List.mem_append.mp hi with hold | hnew
    · have := h.queued i hold
      exact ⟨by omega, this.2⟩
    · rw [List.mem_singleton.mp hnew]
      exact ⟨by omega, hfresh⟩
  · intro x i hx
    obtain ⟨hlt, hi, hnot, hfin⟩ := h.current x i hx
    show x < c.concurrency ∧ i < (s.submitted ++ [attempt]).length ∧
      i ∉ s.queue ++ [s.submitted.length] ∧ i ∉ s.finished
    refine ⟨hlt, by omega, fun hmem => ?_, hfin⟩
    rcases List.mem_append.mp hmem with hold | hnew
    · exact hnot hold
    · have := List.mem_singleton.mp hnew
      omega
  · exact h.alone
  · refine List.nodup_append.mpr ⟨h.queue, List.nodup_singleton _, ?_⟩
    intro i hi j hj hij
    rw [List.mem_singleton.mp hj] at hij
    have := (h.queued i hi).1
    omega
  · intro i hi
    show i < (s.submitted ++ [attempt]).length
    have := h.finished i hi
    omega
  · refine List.nodup_cons.mpr ⟨fun hmem => ?_, h.inFlight⟩
    have := h.listed _ hmem
    omega
  · intro i hi
    show i < (s.submitted ++ [attempt]).length
    rcases List.mem_cons.mp hi with rfl | hold
    · omega
    · have := h.listed i hold
      omega
  · intro i hi hnot
    have hi' : i < (s.submitted ++ [attempt]).length := hi
    by_cases hlast : i = s.submitted.length
    · rw [hlast]
      exact List.mem_cons_self ..
    · exact List.mem_cons_of_mem _ (h.unfinished i (by omega) hnot)
  · show s.claimed + 1 = (s.submitted ++ [attempt]).length
    rw [hlen, h.claimed]
  · exact h.executing

structure Inv (c : LoopConfig) (s : LoopState) : Prop where
  timeouts : s.timeouts.Inv c.grace
  futures : s.FuturesOk c
  looks : s.LooksOk c
  pass : s.PassOk c

/-- An exception leaves the loop. -/
theorem PassOk.fault (hp : s.PassOk c) (hs : s.stage.Inner = true) : s.fault.PassOk c := by
  have hrenews : s.renewing = true := hp.renews fun h => by
    rw [h] at hs
    cases hs
  refine .of_left rfl hp.bound hp.limit hp.owed hp.said (.inr rfl) ?_ nofun nofun
  show s.renewing = false ↔ LoopStage.stopping = .ended
  rw [hrenews]
  exact ⟨nofun, nofun⟩

/-- `_complete`, for what is so. -/
theorem PassOk.complete (hp : s.PassOk c) (hs : s.stage.Inner = true) {r : Completion}
    (hsaid : s.Said c r) : { s.complete r with stage := .head }.PassOk c := by
  have hrenews : s.renewing = true := hp.renews fun h => by
    rw [h] at hs
    cases hs
  unfold LoopState.complete
  split
  · exact .of_head rfl hp.bound hp.limit hp.owed hp.said hrenews
  · refine .of_head rfl hp.bound hp.limit hp.owed ?_ hrenews
    intro r' hr
    obtain rfl := Option.some.inj hr
    refine ⟨rfl, ?_⟩
    cases r with
    | maxTasks => exact hsaid
    | batchEmpty => exact hsaid

theorem LooksOk.complete (h : s.LooksOk c) {r : Completion} :
    { s.complete r with stage := .head }.LooksOk c := by
  unfold LoopState.complete
  split
  · exact h.of_eq nofun rfl rfl rfl le_rfl
  · exact h.of_eq nofun rfl rfl rfl le_rfl

theorem FuturesOk.complete (h : s.FuturesOk c) (r : Completion) (stage : LoopStage) :
    { s.complete r with stage := stage }.FuturesOk c := by
  unfold LoopState.complete
  split
  · exact h.of_eq rfl rfl rfl rfl rfl rfl rfl
  · exact h.of_eq rfl rfl rfl rfl rfl rfl rfl

theorem Beside.of_eq (h : s' = { s with
    timeouts := s'.timeouts
    stop := s'.stop
    queue := s'.queue
    current := s'.current
    finished := s'.finished
    generation := s'.generation
    claiming := s'.claiming
    granted := s'.granted }) (hstop : s.stop = true → s'.stop = true)
    (hfinished : ∀ i, i ∈ s.finished → i ∈ s'.finished)
    (hrec : s.timeouts.recycling = true → s'.timeouts.recycling = true)
    (hnow : s.timeouts.now ≤ s'.timeouts.now) : Beside s s' := by
  constructor
  · rw [h]
  · rw [h]
  · rw [h]
  · rw [h]
  · rw [h]
  · rw [h]
  · rw [h]
  · rw [h]
  · rw [h]
  · rw [h]
  · rw [h]
  · rw [h]
  · rw [h]
  · rw [h]
  · exact hstop
  · exact hfinished
  · exact hrec
  · exact hnow

/-- The pool, the watchdog, other threads and signals. -/
theorem Inv.beside (hi : s.Inv c) (hb : Beside s s') (ht : s'.timeouts.Inv c.grace)
    (hf : s'.FuturesOk c) : s'.Inv c :=
  ⟨ht, hf, hi.looks.of_eq (hb.stage ▸ id) hb.unlookedSince hb.unconfirmedAt hb.deferred hb.now,
    hi.pass.beside hb⟩

theorem allDone_of_pending_eq_nil (hf : s.FuturesOk c) (h : s.pending s.inFlight = []) :
    s.AllDone := by
  intro i hi
  by_contra hnot
  have hmem := mem_pending.mpr ⟨hf.unfinished i hi hnot, hnot⟩
  rw [h] at hmem
  cases hmem

theorem Inv.reap (hi : s.Inv c) {e : PassEnd} (h : s.step c (.reap e) = some s') : s'.Inv c := by
  obtain ⟨hs, h⟩ := Option.ite_none_right_eq_some.mp h
  have hinner : s.stage.Inner = true := hs ▸ rfl
  have hp := hi.pass
  have hunsaid := hp.unsaid hinner
  have hrenews : s.renewing = true := hp.renews (hs ▸ nofun)
  have hnext : ∀ n, { s with lastReap := n, stage := .dispatching }.Inv c := fun n =>
    ⟨hi.timeouts, hi.futures.of_eq rfl rfl rfl rfl rfl rfl rfl,
      hi.looks.of_eq nofun rfl rfl rfl le_rfl,
      .of_inner rfl hp.bound nofun hp.limit nofun nofun hp.owed hunsaid hrenews⟩
  split at h
  · cases e with
    | done =>
      obtain rfl := Option.some.inj h
      exact hnext _
    | error =>
      obtain rfl := Option.some.inj h
      exact ⟨hi.timeouts, hi.futures.of_eq rfl rfl rfl rfl rfl rfl rfl,
        hi.looks.of_eq nofun rfl rfl rfl le_rfl,
        .of_head rfl hp.bound hp.limit hp.owed hp.said hrenews⟩
    | fault =>
      obtain rfl := Option.some.inj h
      exact ⟨hi.timeouts, hi.futures.of_eq rfl rfl rfl rfl rfl rfl rfl,
        hi.looks.of_eq nofun rfl rfl rfl le_rfl, hp.fault hinner⟩
  · obtain rfl := Option.some.inj h
    exact hnext s.lastReap

theorem Inv.dispatch (hi : s.Inv c) {e : DispatchEnd} (h : s.step c (.dispatch e) = some s') :
    s'.Inv c := by
  obtain ⟨hs, h⟩ := Option.ite_none_right_eq_some.mp h
  have hinner : s.stage.Inner = true := hs ▸ rfl
  have hp := hi.pass
  have hunsaid := hp.unsaid hinner
  have hrenews : s.renewing = true := hp.renews (hs ▸ nofun)
  have hf := hi.futures
  split at h
  · cases e with
    | completed =>
      obtain rfl := Option.some.inj h
      exact ⟨hi.timeouts, hf.of_eq rfl rfl rfl rfl rfl rfl rfl,
        hi.looks.of_eq nofun rfl rfl rfl le_rfl,
        .of_inner rfl hp.bound nofun hp.limit nofun nofun rfl hunsaid hrenews⟩
    | abandoned =>
      obtain rfl := Option.some.inj h
      exact ⟨hi.timeouts, hf.of_eq rfl rfl rfl rfl rfl rfl rfl,
        hi.looks.of_eq nofun rfl rfl rfl le_rfl,
        .of_inner rfl hp.bound nofun hp.limit nofun nofun rfl hunsaid hrenews⟩
    | fault =>
      obtain rfl := Option.some.inj h
      have howed : { s with dispatchOwed := true, dispatched := false }.PassOk c := by
        refine .of_inner hinner hp.bound ?_ hp.limit ?_ ?_ rfl hunsaid hrenews
        · exact hp.asking
        · exact hp.idle
        · exact hp.quiet
      exact ⟨hi.timeouts, hf.of_eq rfl rfl rfl rfl rfl rfl rfl,
        hi.looks.of_eq nofun rfl rfl rfl le_rfl, howed.fault hinner⟩
  · obtain rfl := Option.some.inj h
    exact ⟨hi.timeouts, hf.of_eq rfl rfl rfl rfl rfl rfl rfl,
      hi.looks.of_eq nofun rfl rfl rfl le_rfl,
      .of_inner rfl hp.bound nofun hp.limit nofun nofun hp.owed hunsaid hrenews⟩

/-- The look goes on, or its pass does. -/
theorem Inv.goOn (hi : s.Inv c) (hs : s.stage.Inner = true) {u v : Option ℕ} {d : Bool}
    {stage : LoopStage} (hinner : stage.Inner = true) (hidle : stage.Idle = false)
    (hasking : ∀ idle any, stage ≠ .asking idle any)
    (hlooks : { s with
      unconfirmedAt := u, unlookedSince := v, deferred := d, stage := stage }.LooksOk c) :
    { s with unconfirmedAt := u, unlookedSince := v, deferred := d, stage := stage }.Inv c := by
  have hp := hi.pass
  have hrenews : s.renewing = true := hp.renews fun h => by
    rw [h] at hs
    cases hs
  refine ⟨hi.timeouts, hi.futures.of_eq rfl rfl rfl rfl rfl rfl rfl, hlooks,
    .of_inner hinner hp.bound ?_ hp.limit ?_ ?_ hp.owed (hp.unsaid hs) hrenews⟩
  · exact fun idle any h => absurd h (hasking idle any)
  · intro h
    cases hidle.symm.trans h
  · intro h
    have hstage : stage = .deciding true false true := h
    rw [hstage] at hidle
    cases hidle

theorem Inv.recover (hi : s.Inv c) {e : LookStart} (h : s.step c (.recover e) = some s') :
    s'.Inv c := by
  obtain ⟨hs, h⟩ := Option.ite_none_right_eq_some.mp h
  have hinner : s.stage.Inner = true := hs ▸ rfl
  have hnoted := hi.looks.noted
  cases e with
  | fault =>
    obtain rfl := Option.some.inj h
    exact ⟨hi.timeouts, hi.futures.of_eq rfl rfl rfl rfl rfl rfl rfl,
      hi.looks.of_eq nofun rfl rfl rfl le_rfl, hi.pass.fault hinner⟩
  | connection usable =>
    dsimp only at h
    split at h
    · obtain rfl := Option.some.inj h
      exact hi.goOn hinner rfl rfl nofun ⟨hnoted, fun _ => .inr rfl⟩
    · split at h
      · next hnone =>
        obtain rfl := Option.some.inj h
        have hlooked : s.LookedFor c := by
          rcases hnoted with hlate | hsame
          · exact hlate
          · exact .of_eq_none (hsame.trans hnone)
        exact hi.goOn hinner rfl rfl nofun ⟨.inl hlooked, fun _ => .inl hlooked⟩
      · next since hsince =>
        split at h
        · next hlate =>
          obtain rfl := Option.some.inj h
          have hlooked : s.LookedFor c := hi.looks.late hsince hlate
          exact hi.goOn hinner rfl rfl nofun ⟨.inl hlooked, fun _ => .inl hlooked⟩
        · split at h
          · obtain rfl := Option.some.inj h
            exact hi.goOn hinner rfl rfl nofun ⟨hnoted, nofun⟩
          · obtain rfl := Option.some.inj h
            exact hi.goOn hinner rfl rfl nofun ⟨hnoted, fun _ => .inr rfl⟩

theorem Inv.recovered (hi : s.Inv c) {e : PassEnd} (h : s.step c (.recovered e) = some s') :
    s'.Inv c := by
  simp only [LoopState.step] at h
  split at h
  · next generation hs =>
    have hinner : s.stage.Inner = true := hs ▸ rfl
    have hp := hi.pass
    cases e with
    | done =>
      dsimp only at h
      split_ifs at h with hsame
      · obtain rfl := Option.some.inj h
        have hlooked : { s with
            unconfirmedAt := none, unlookedSince := none, stage := .pruning }.LookedFor c :=
          .of_eq_none rfl
        exact hi.goOn hinner rfl rfl nofun ⟨.inl hlooked, fun _ => .inl hlooked⟩
      · obtain rfl := Option.some.inj h
        exact hi.goOn hinner rfl rfl nofun ⟨hi.looks.noted, fun _ => .inr rfl⟩
    | error =>
      obtain rfl := Option.some.inj h
      exact ⟨hi.timeouts, hi.futures.of_eq rfl rfl rfl rfl rfl rfl rfl,
        hi.looks.of_eq nofun rfl rfl rfl le_rfl,
        .of_head rfl hp.bound hp.limit hp.owed hp.said (hp.renews (hs ▸ nofun))⟩
    | fault =>
      obtain rfl := Option.some.inj h
      exact ⟨hi.timeouts, hi.futures.of_eq rfl rfl rfl rfl rfl rfl rfl,
        hi.looks.of_eq nofun rfl rfl rfl le_rfl, hp.fault hinner⟩
  · cases h

theorem Inv.prune (hi : s.Inv c) (h : s.step c .prune = some s') : s'.Inv c := by
  obtain ⟨hs, h⟩ := Option.ite_none_right_eq_some.mp h
  obtain rfl := Option.some.inj h
  have hp := hi.pass
  have hrenews : s.renewing = true := hp.renews (hs ▸ nofun)
  have hshort : (s.pending s.inFlight).length ≤ s.inFlight.length := List.length_filter_le _ _
  refine ⟨hi.timeouts, hi.futures.prune _, hi.looks.of_eq (fun _ => hs ▸ rfl) rfl rfl rfl le_rfl,
    .of_inner ?_ (hshort.trans hp.bound) nofun hp.limit ?_ nofun hp.owed (hp.unsaid (hs ▸ rfl))
      hrenews⟩
  · rfl
  · intro hidle
    have hnil : s.pending s.inFlight = [] := by
      by_contra hne
      rw [decide_eq_false hne] at hidle
      cases hidle
    have hdone : s.AllDone := allDone_of_pending_eq_nil hi.futures hnil
    exact hdone

theorem Inv.beginClaim (hi : s.Inv c) (h : s.step c .beginClaim = some s') : s'.Inv c := by
  simp only [LoopState.step] at h
  split at h
  · next idle any hs =>
    have hp := hi.pass
    have hrenews : s.renewing = true := hp.renews (hs ▸ nofun)
    have hunsaid := hp.unsaid (hs ▸ rfl)
    have hlooks : s.stage.Looked = true := hs ▸ rfl
    have hidle : ∀ stage' : LoopStage, stage'.Idle = s.stage.Idle → stage'.Idle = true →
        s.AllDone := fun stage' he ht => hp.idle (he ▸ ht)
    split at h
    · next hroom =>
      obtain rfl := Option.some.inj h
      refine ⟨hi.timeouts, hi.futures.of_eq rfl rfl rfl rfl rfl rfl rfl,
        hi.looks.of_eq (fun _ => hlooks) rfl rfl rfl le_rfl,
        .of_inner rfl hp.bound ?_ hp.limit ?_ nofun hp.owed hunsaid hrenews⟩
      · exact fun _ _ _ => ⟨hroom.1, hroom.2.2⟩
      · refine hidle (.asking idle any) ?_
        rw [hs]
        cases idle <;> cases any <;> rfl
    · obtain rfl := Option.some.inj h
      refine ⟨hi.timeouts, hi.futures.of_eq rfl rfl rfl rfl rfl rfl rfl,
        hi.looks.of_eq (fun _ => hlooks) rfl rfl rfl le_rfl,
        .of_inner rfl hp.bound nofun hp.limit ?_ nofun hp.owed hunsaid hrenews⟩
      refine hidle (.deciding idle any false) ?_
      rw [hs]
      cases idle <;> cases any <;> rfl
  · cases h

theorem pending_range_eq_nil : s.pending (List.range s.submitted.length) = [] ↔ s.AllDone := by
  constructor
  · intro h i hi
    by_contra hnot
    have hmem := mem_pending.mpr ⟨List.mem_range.mpr hi, hnot⟩
    rw [h] at hmem
    cases hmem
  · intro h
    rw [List.eq_nil_iff_forall_not_mem]
    intro i hi
    obtain ⟨hlt, hnot⟩ := mem_pending.mp hi
    exact hnot (h i (List.mem_range.mp hlt))

theorem Inv.claim (hi : s.Inv c) {e : ClaimEnd} (h : s.step c (.claim e) = some s') :
    s'.Inv c := by
  simp only [LoopState.step] at h
  split at h
  · next idle any hs =>
    have hp := hi.pass
    have hinner : s.stage.Inner = true := hs ▸ rfl
    have hrenews : s.renewing = true := hp.renews (hs ▸ nofun)
    have hunsaid := hp.unsaid hinner
    have hlooks : s.stage.Looked = true := hs ▸ rfl
    obtain ⟨hroom, hlimit⟩ := hp.asking idle any hs
    cases e with
    | row attempt =>
      obtain ⟨-, h⟩ := Option.ite_none_right_eq_some.mp h
      obtain rfl := Option.some.inj h
      refine ⟨hi.timeouts, (hi.futures.submit attempt).of_eq rfl rfl rfl rfl rfl rfl rfl,
        hi.looks.of_eq (fun _ => hlooks) rfl rfl rfl le_rfl,
        .of_inner rfl ?_ nofun ?_ ?_ nofun hp.owed hunsaid hrenews⟩
      · show s.inFlight.length + 1 ≤ c.concurrency
        omega
      · intro m hm
        unfold limitReached at hlimit
        rw [hm] at hlimit
        have hlt : ¬ m ≤ s.claimed := of_decide_eq_false hlimit
        show s.claimed + 1 ≤ m
        omega
      · intro hidle
        cases idle <;> cases hidle
    | nothing contended =>
      obtain rfl := Option.some.inj h
      have hdone : (LoopStage.deciding idle any (!contended)).Idle = true → s.AllDone := by
        intro hidle
        refine hp.idle ?_
        rw [hs]
        cases idle <;> cases any <;> exact hidle
      refine ⟨hi.timeouts, hi.futures.of_eq rfl rfl rfl rfl rfl rfl rfl,
        hi.looks.of_eq (fun _ => hlooks) rfl rfl rfl le_rfl,
        .of_inner rfl hp.bound nofun hp.limit hdone ?_ hp.owed hunsaid hrenews⟩
      intro hst
      obtain ⟨rfl, rfl, hfound⟩ := LoopStage.deciding.inj hst
      have hnil := pending_range_eq_nil.mpr (hdone rfl)
      show (!contended && decide (s.pending (List.range s.submitted.length) = [])) = true
      rw [hnil, hfound]
      rfl
    | error noted =>
      obtain rfl := Option.some.inj h
      refine ⟨hi.timeouts, hi.futures.of_eq rfl rfl rfl rfl rfl rfl rfl, ⟨?_, nofun⟩,
        .of_head rfl hp.bound hp.limit hp.owed hp.said hrenews⟩
      cases noted with
      | true => exact .inr rfl
      | false => exact hi.looks.noted
    | fault =>
      obtain rfl := Option.some.inj h
      exact ⟨hi.timeouts, hi.futures.of_eq rfl rfl rfl rfl rfl rfl rfl,
        hi.looks.of_eq nofun rfl rfl rfl le_rfl, hp.fault hinner⟩
  · cases h

theorem Inv.decide (hi : s.Inv c) (h : s.step c .decide = some s') : s'.Inv c := by
  simp only [LoopState.step] at h
  split at h
  · next idle any found hs =>
    have hp := hi.pass
    have hinner : s.stage.Inner = true := hs ▸ rfl
    split at h
    · next hlimit =>
      obtain rfl := Option.some.inj h
      exact ⟨by unfold complete; split <;> exact hi.timeouts, hi.futures.complete _ _,
        hi.looks.complete, hp.complete hinner hlimit⟩
    · split at h
      · next hempty =>
        obtain ⟨-, rfl, rfl, rfl, howed⟩ := hempty
        obtain rfl := Option.some.inj h
        have hdispatched : s.dispatched = true := by rw [hp.owed, howed]; rfl
        exact ⟨by unfold complete; split <;> exact hi.timeouts, hi.futures.complete _ _,
          hi.looks.complete, hp.complete hinner ⟨hp.idle (hs ▸ rfl), hp.quiet hs, hdispatched⟩⟩
      · obtain rfl := Option.some.inj h
        exact ⟨hi.timeouts, hi.futures.of_eq rfl rfl rfl rfl rfl rfl rfl,
          hi.looks.of_eq nofun rfl rfl rfl le_rfl,
          .of_head rfl hp.bound hp.limit hp.owed hp.said (hp.renews (hs ▸ nofun))⟩
  · cases h

/-- A step of the drain, to a stage that is not yet the end of it. -/
theorem PassOk.drain (hp : s.PassOk c) (hs : s.stage.Left = true) (hend : s.stage ≠ .ended)
    {stage : LoopStage} {since : Option ℕ} (hleft : stage.Left = true) (hne : stage ≠ .ended)
    (hwaited : ∀ t, stage.giveUpAt? = some t → s.timeouts.recycling = true ∧
      ∃ t₀, since = some t₀ ∧ t = t₀ + c.recycleDrainBudget)
    (hjudging : ∀ t l, stage = .judging t l → ∀ i < s.submitted.length, i ∉ s.finished → i ∈ l) :
    { s with stage := stage, recyclingSince := since }.PassOk c := by
  refine .of_left hleft hp.bound hp.limit hp.owed hp.said (hp.left hs) ?_ hwaited hjudging
  show s.renewing = false ↔ stage = .ended
  rw [hp.renews hend]
  exact ⟨nofun, fun h => absurd h hne⟩

/-- The drain is over, and with it the renewal. -/
theorem PassOk.ended (hp : s.PassOk c) (hs : s.stage.Left = true) :
    { s with stage := .ended, renewing := false }.PassOk c :=
  .of_left rfl hp.bound hp.limit hp.owed hp.said (hp.left hs) ⟨fun _ => rfl, fun _ => rfl⟩ nofun
    nofun

/-- The pass and the drain are not made of the looks. -/
theorem PassOk.unlooked (hp : s.PassOk c) (u v : Option ℕ) :
    { s with unconfirmedAt := u, unlookedSince := v }.PassOk c :=
  ⟨hp.bound, hp.asking, hp.limit, hp.idle, hp.quiet, hp.owed, hp.completed, hp.left, hp.renewing,
    hp.waited, hp.judging⟩

theorem Inv.recoverOnce (hi : s.Inv c) {completed : Bool}
    (h : s.step c (.recoverOnce completed) = some s') : s'.Inv c := by
  obtain ⟨hs, h⟩ := Option.ite_none_right_eq_some.mp h
  have hgo : ∀ u v, { s with
      unconfirmedAt := u, unlookedSince := v, stage := .draining none }.LooksOk c →
      { s with unconfirmedAt := u, unlookedSince := v, stage := .draining none }.Inv c :=
    fun u v hlooks => ⟨hi.timeouts, hi.futures.of_eq rfl rfl rfl rfl rfl rfl rfl, hlooks,
      (hi.pass.unlooked u v).drain (hs ▸ rfl) (fun he => by cases hs.symm.trans he) rfl nofun nofun
        nofun⟩
  have hstay : { s with stage := .draining none }.LooksOk c := ⟨hi.looks.noted, nofun⟩
  split at h
  · split at h
    · obtain rfl := Option.some.inj h
      exact hgo _ _ hstay
    · next since hsince =>
      split at h
      · next hlate =>
        obtain rfl := Option.some.inj h
        have hlooked : s.LookedFor c := hi.looks.late hsince hlate
        exact hgo _ _ ⟨.inl hlooked, nofun⟩
      · obtain rfl := Option.some.inj h
        exact hgo _ _ ⟨.inr rfl, nofun⟩
  · obtain rfl := Option.some.inj h
    exact hgo _ _ hstay

theorem Inv.look (hi : s.Inv c) (h : s.step c .look = some s') : s'.Inv c := by
  simp only [LoopState.step] at h
  split at h
  · next giveUpAt hs =>
    have hp := hi.pass
    have hleft : s.stage.Left = true := hs ▸ rfl
    have hf := hi.futures
    split at h
    · obtain rfl := Option.some.inj h
      exact ⟨hi.timeouts, hf.of_eq rfl rfl rfl rfl rfl rfl rfl,
        hi.looks.of_eq nofun rfl rfl rfl le_rfl, hp.ended hleft⟩
    · obtain rfl := Option.some.inj h
      refine ⟨hi.timeouts, hf.of_eq rfl rfl rfl rfl rfl rfl rfl,
        hi.looks.of_eq nofun rfl rfl rfl le_rfl,
        hp.drain hleft (hs ▸ nofun) rfl nofun ?_ ?_⟩
      · intro t ht
        exact hp.waited t (hs ▸ ht)
      · intro t l hl i hlt hnot
        cases hl
        exact mem_pending.mpr ⟨hf.unfinished i hlt hnot, hnot⟩
  · cases h

theorem Inv.judge (hi : s.Inv c) (h : s.step c .judge = some s') : s'.Inv c := by
  simp only [LoopState.step] at h
  split at h
  · next giveUpAt pending hs =>
    have hp := hi.pass
    have hleft : s.stage.Left = true := hs ▸ rfl
    have hf := hi.futures
    have hended : { s with stage := .ended, renewing := false }.Inv c :=
      ⟨hi.timeouts, hf.of_eq rfl rfl rfl rfl rfl rfl rfl,
        hi.looks.of_eq nofun rfl rfl rfl le_rfl, hp.ended hleft⟩
    have hagain : { s with stage := .draining giveUpAt }.Inv c :=
      ⟨hi.timeouts, hf.of_eq rfl rfl rfl rfl rfl rfl rfl,
        hi.looks.of_eq nofun rfl rfl rfl le_rfl,
        hp.drain hleft (hs ▸ nofun) rfl nofun (fun t ht => hp.waited t (hs ▸ ht)) nofun⟩
    split at h
    · next hrec =>
      split at h
      · obtain rfl := Option.some.inj h
        exact hended
      · split at h
        · obtain rfl := Option.some.inj h
          refine ⟨hi.timeouts, hf.of_eq rfl rfl rfl rfl rfl rfl rfl,
            hi.looks.of_eq nofun rfl rfl rfl le_rfl,
            hp.drain hleft (hs ▸ nofun) rfl nofun ?_ nofun⟩
          intro t ht
          exact ⟨hrec, _, rfl, (Option.some.inj ht).symm⟩
        · split at h
          · obtain rfl := Option.some.inj h
            exact hended
          · obtain rfl := Option.some.inj h
            exact hagain
    · obtain rfl := Option.some.inj h
      exact hagain
  · cases h

theorem Inv.step {a : LoopAction} (hi : s.Inv c) (h : s.step c a = some s') : s'.Inv c := by
  cases a with
  | timeouts a =>
    obtain ⟨hmay, h⟩ := Option.ite_none_right_eq_some.mp h
    obtain ⟨t, ht, rfl⟩ := Option.map_eq_some_iff.mp h
    have ho := TimeoutState.step_outlook ht
    refine hi.beside ?_ (hi.timeouts.step ht) (hi.futures.timeouts ho ?_)
    · exact .of_eq rfl (fun h => h) (fun _ h => h) ho.recycling ho.now
    · rintro x e rfl -
      have hcur : (x < c.concurrency ∧
          (s.current x).bind (fun i => s.submitted[i]?) = some e) := of_decide_eq_true hmay
      obtain ⟨i, hx, -⟩ := Option.bind_eq_some_iff.mp hcur.2
      exact ⟨i, hx⟩
  | beginInline x =>
    obtain ⟨-, h⟩ := Option.ite_none_right_eq_some.mp h
    obtain rfl := Option.some.inj h
    refine hi.beside ?_ hi.timeouts (hi.futures.of_eq rfl rfl rfl rfl rfl rfl rfl)
    exact .of_eq rfl (fun h => h) (fun _ h => h) (fun h => h) le_rfl
  | inline x attempt =>
    obtain ⟨⟨hout, -⟩, h⟩ := Option.ite_none_right_eq_some.mp h
    obtain ⟨t, ht, rfl⟩ := Option.map_eq_some_iff.mp h
    have ho := TimeoutState.step_outlook ht
    have hf : { s with timeouts := t }.FuturesOk c := hi.futures.timeouts ho fun y e he hlt => by
      cases he
      omega
    refine hi.beside ?_ (hi.timeouts.step ht) (hf.of_eq rfl rfl rfl rfl rfl rfl rfl)
    exact .of_eq rfl (fun h => h) (fun _ h => h) ho.recycling ho.now
  | inlineNothing x =>
    obtain ⟨-, h⟩ := Option.ite_none_right_eq_some.mp h
    obtain rfl := Option.some.inj h
    refine hi.beside ?_ hi.timeouts (hi.futures.of_eq rfl rfl rfl rfl rfl rfl rfl)
    exact .of_eq rfl (fun h => h) (fun _ h => h) (fun h => h) le_rfl
  | requestStop =>
    obtain rfl := Option.some.inj h
    refine hi.beside ?_ hi.timeouts (hi.futures.of_eq rfl rfl rfl rfl rfl rfl rfl)
    exact .of_eq rfl (fun _ => rfl) (fun _ h => h) (fun h => h) le_rfl
  | recycleStop =>
    obtain ⟨-, h⟩ := Option.ite_none_right_eq_some.mp h
    obtain rfl := Option.some.inj h
    refine hi.beside ?_ hi.timeouts (hi.futures.of_eq rfl rfl rfl rfl rfl rfl rfl)
    exact .of_eq rfl (fun _ => rfl) (fun _ h => h) (fun h => h) le_rfl
  | take x =>
    simp only [LoopState.step] at h
    split at h
    · next i queue hq =>
      obtain ⟨⟨hx, hfree⟩, h⟩ := Option.ite_none_right_eq_some.mp h
      obtain rfl := Option.some.inj h
      refine hi.beside ?_ hi.timeouts (hi.futures.take hq hx hfree)
      exact .of_eq rfl (fun h => h) (fun _ h => h) (fun h => h) le_rfl
    · cases h
  | finish x =>
    simp only [LoopState.step] at h
    split at h
    · next i hx =>
      obtain ⟨hidle, h⟩ := Option.ite_none_right_eq_some.mp h
      obtain rfl := Option.some.inj h
      refine hi.beside ?_ hi.timeouts (hi.futures.finish hx ((hi.timeouts.call x).idle.mpr hidle))
      exact .of_eq rfl (fun h => h) (fun _ h => List.mem_cons_of_mem _ h) (fun h => h) le_rfl
    · cases h
  | head orphaned =>
    obtain ⟨hs, h⟩ := Option.ite_none_right_eq_some.mp h
    have hp := hi.pass
    have hf := hi.futures
    have hrenews : s.renewing = true := hp.renews (hs ▸ nofun)
    have hend : s.renewing = false ↔ LoopStage.stopping = .ended := by
      rw [hrenews]
      exact ⟨nofun, nofun⟩
    split at h
    · next hstop =>
      obtain rfl := Option.some.inj h
      exact ⟨hi.timeouts, hf.of_eq rfl rfl rfl rfl rfl rfl rfl,
        hi.looks.of_eq nofun rfl rfl rfl le_rfl,
        .of_left rfl hp.bound hp.limit hp.owed hp.said (.inl hstop) hend nofun nofun⟩
    · next hgo =>
      split at h
      · obtain rfl := Option.some.inj h
        refine ⟨hi.timeouts, hf.of_eq rfl rfl rfl rfl rfl rfl rfl,
          hi.looks.of_eq nofun rfl rfl rfl le_rfl,
          .of_left rfl hp.bound hp.limit hp.owed ?_ (.inl rfl) hend nofun nofun⟩
        exact fun r hr => ⟨rfl, (hp.said r hr).2⟩
      · obtain rfl := Option.some.inj h
        have hunsaid : s.completed = none := by
          cases hr : s.completed with
          | none => rfl
          | some r => exact absurd (hp.said r hr).1 hgo
        exact ⟨hi.timeouts, hf.of_eq rfl rfl rfl rfl rfl rfl rfl,
          hi.looks.of_eq nofun rfl rfl rfl le_rfl,
          .of_inner rfl hp.bound nofun hp.limit nofun nofun hp.owed hunsaid hrenews⟩
  | reap e => exact hi.reap h
  | dispatch e => exact hi.dispatch h
  | recover e => exact hi.recover h
  | recovered e => exact hi.recovered h
  | prune => exact hi.prune h
  | beginClaim => exact hi.beginClaim h
  | claim e => exact hi.claim h
  | decide => exact hi.decide h
  | recoverOnce completed => exact hi.recoverOnce h
  | look => exact hi.look h
  | judge => exact hi.judge h

theorem inv_of_start (h : s.Start) : s.Inv c := by
  obtain ⟨ht, hs, -, -, -, howed, hclaimed, hin, hsub, hqueue, hcurrent, hfin, hrenews, -, hsaid, -,
    hat, -, -, hsince, -, -, hdisp, -⟩ := h
  refine ⟨TimeoutState.inv_of_start ht, ?_, ⟨.inr (hsince.trans hat.symm), hs ▸ nofun⟩,
    .of_head hs ?_ ?_ ?_ ?_ hrenews⟩
  · constructor
    · rw [hqueue]
      exact nofun
    · intro x i hx
      rw [hcurrent] at hx
      cases hx
    · intro x y i hx
      rw [hcurrent] at hx
      cases hx
    · rw [hqueue]
      exact List.nodup_nil
    · rw [hfin]
      exact nofun
    · rw [hin]
      exact List.nodup_nil
    · rw [hin]
      exact nofun
    · rw [hsub]
      exact nofun
    · rw [hclaimed, hsub]
      rfl
    · intro x e _ hrun
      rw [(ht.1 x).2.2.1] at hrun
      cases hrun
  · rw [hin]
    exact Nat.zero_le _
  · rw [hclaimed]
    exact fun m _ => Nat.zero_le m
  · rw [hdisp, howed]
    rfl
  · intro r hr
    rw [hsaid] at hr
    cases hr

theorem inv_of_reachable (h : (loopSystem c).Reachable s) : s.Inv c :=
  h.invariant (Inv c) (fun _ hs => inv_of_start hs) fun _ _ _ hi hs => hi.step hs

/-! After a stop, the one claim that may be on its way is the last. -/

/-- The claims that a stopped worker can still make. -/
def onItsWay (s : LoopState) : ℕ :=
  match s.stage with
  | .asking _ _ => 1
  | _ => 0

theorem onItsWay_le (s : LoopState) : s.onItsWay ≤ 1 := by
  unfold onItsWay
  split
  · exact le_rfl
  · exact Nat.zero_le _

theorem claims_of_still (hstop : s'.stop = true) (hclaimed : s'.claimed = s.claimed)
    (hway : s'.onItsWay = 0) :
    s'.stop = true ∧ s'.claimed + s'.onItsWay ≤ s.claimed + s.onItsWay :=
  ⟨hstop, by omega⟩

theorem claims_complete (hstop : s.stop = true) (r : Completion) :
    { s.complete r with stage := .head }.stop = true ∧
      { s.complete r with stage := .head }.claimed + 0 ≤ s.claimed + s.onItsWay := by
  unfold complete
  rw [if_pos hstop]
  exact ⟨hstop, Nat.le_add_right _ _⟩

theorem claims_step {a : LoopAction} (hstop : s.stop = true) (h : s.step c a = some s') :
    s'.stop = true ∧ s'.claimed + s'.onItsWay ≤ s.claimed + s.onItsWay := by
  cases a with
  | timeouts a =>
    obtain ⟨-, h⟩ := Option.ite_none_right_eq_some.mp h
    obtain ⟨t, -, rfl⟩ := Option.map_eq_some_iff.mp h
    exact ⟨hstop, le_rfl⟩
  | inline x attempt =>
    obtain ⟨-, h⟩ := Option.ite_none_right_eq_some.mp h
    obtain ⟨t, -, rfl⟩ := Option.map_eq_some_iff.mp h
    exact ⟨hstop, le_rfl⟩
  | requestStop =>
    obtain rfl := Option.some.inj h
    exact ⟨rfl, le_rfl⟩
  | recycleStop =>
    obtain ⟨-, h⟩ := Option.ite_none_right_eq_some.mp h
    obtain rfl := Option.some.inj h
    exact ⟨rfl, le_rfl⟩
  | head orphaned =>
    obtain ⟨-, h⟩ := Option.ite_none_right_eq_some.mp h
    rw [if_pos hstop] at h
    obtain rfl := Option.some.inj h
    exact claims_of_still hstop rfl rfl
  | beginClaim =>
    simp only [step] at h
    split at h
    · -- The loop reads the stop before each claim.
      rw [if_neg fun hroom => by rw [hstop] at hroom; cases hroom.2.1] at h
      obtain rfl := Option.some.inj h
      exact claims_of_still hstop rfl rfl
    · cases h
  | claim e =>
    simp only [step] at h
    split at h
    · next idle any hs =>
      have hway : s.onItsWay = 1 := by
        unfold onItsWay
        rw [hs]
      cases e with
      | row attempt =>
        obtain ⟨-, h⟩ := Option.ite_none_right_eq_some.mp h
        obtain rfl := Option.some.inj h
        refine ⟨hstop, ?_⟩
        show s.claimed + 1 + 0 ≤ _
        omega
      | nothing contended =>
        obtain rfl := Option.some.inj h
        exact claims_of_still hstop rfl rfl
      | error =>
        obtain rfl := Option.some.inj h
        exact claims_of_still hstop rfl rfl
      | fault =>
        obtain rfl := Option.some.inj h
        exact claims_of_still hstop rfl rfl
    · cases h
  | decide =>
    simp only [step] at h
    split at h
    · split at h
      · obtain rfl := Option.some.inj h
        exact claims_complete hstop _
      · split at h
        · obtain rfl := Option.some.inj h
          exact claims_complete hstop _
        · obtain rfl := Option.some.inj h
          exact claims_of_still hstop rfl rfl
    · cases h
  | beginInline _ | inlineNothing _ | take _ | finish _ =>
    simp only [step] at h
    repeat' split at h
    all_goals cases h
    all_goals exact ⟨hstop, le_rfl⟩
  | reap _ | dispatch _ | recover _ | recovered _ | prune | recoverOnce _ | look | judge =>
    -- None of these is part of a claim.
    simp only [step] at h
    repeat' split at h
    all_goals cases h
    all_goals exact claims_of_still hstop rfl rfl

/-- However long a stopped worker goes on, it claims at most once more. -/
theorem claims_run {as : List LoopAction} (hstop : s.stop = true)
    (h : (loopSystem c).run s as = some s') :
    s'.claimed + s'.onItsWay ≤ s.claimed + s.onItsWay := by
  induction as generalizing s with
  | nil => exact (Option.some.inj h ▸ le_rfl)
  | cons a as ih =>
    obtain ⟨s₁, hs, h⟩ := Option.bind_eq_some_iff.mp h
    obtain ⟨hstop₁, hle⟩ := claims_step hstop hs
    exact (ih hstop₁ h).trans hle

/-- A look is left pending by what it meets. -/
theorem deferred_of_step {a : LoopAction} (h : s.step c a = some s') (hd : s'.deferred = true) :
    s.deferred = true ∨
      s.stage = .recovering ∧ (s.claiming ≠ [] ∨ a = .recover (.connection false)) ∨
      ∃ generation, s.stage = .looking generation ∧ s.generation ≠ generation := by
  cases a with
  | timeouts a =>
    obtain ⟨-, h⟩ := Option.ite_none_right_eq_some.mp h
    obtain ⟨t, -, rfl⟩ := Option.map_eq_some_iff.mp h
    exact .inl hd
  | inline x attempt =>
    obtain ⟨-, h⟩ := Option.ite_none_right_eq_some.mp h
    obtain ⟨t, -, rfl⟩ := Option.map_eq_some_iff.mp h
    exact .inl hd
  | recover e =>
    obtain ⟨hs, h⟩ := Option.ite_none_right_eq_some.mp h
    cases e with
    | fault =>
      obtain rfl := Option.some.inj h
      exact .inl hd
    | connection usable =>
      dsimp only at h
      split at h
      · next hmet => exact .inr (.inl ⟨hs, .inl hmet⟩)
      · cases usable with
        | false => exact .inr (.inl ⟨hs, .inr rfl⟩)
        | true =>
          split at h
          · obtain rfl := Option.some.inj h
            cases hd
          · rw [if_pos rfl] at h
            split at h
            · obtain rfl := Option.some.inj h
              cases hd
            · obtain rfl := Option.some.inj h
              cases hd
  | recovered e =>
    simp only [step] at h
    split at h
    · next generation hs =>
      cases e with
      | done =>
        dsimp only at h
        split at h
        · obtain rfl := Option.some.inj h
          exact .inl hd
        · next hmoved => exact .inr (.inr ⟨generation, hs, hmoved⟩)
      | error =>
        obtain rfl := Option.some.inj h
        exact .inl hd
      | fault =>
        obtain rfl := Option.some.inj h
        exact .inl hd
    · cases h
  | decide =>
    have hcomplete : ∀ r, (s.complete r).deferred = s.deferred := by
      intro r
      unfold complete
      split
      · rfl
      · rfl
    simp only [step] at h
    split at h
    · split at h
      · obtain rfl := Option.some.inj h
        exact .inl ((hcomplete _).symm.trans hd)
      · split at h
        · obtain rfl := Option.some.inj h
          exact .inl ((hcomplete _).symm.trans hd)
        · obtain rfl := Option.some.inj h
          exact .inl hd
    · cases h
  | _ =>
    simp only [step] at h
    repeat' split at h
    all_goals cases h
    all_goals exact .inl hd

end LoopState

/-- Every claim of `run` is made with a slot free and within the limit. A claim that raised and was
noted has been looked for by then, unless LOCK_TIMEOUT has passed since it raised, or the look of the
pass met a claim of the worker's own on another thread, in flight or begun since, or a connection
that may hold a caller's transaction. A stopped worker claims at most once more; and it says that the
batch is empty only when all that it claimed is done, after a claim that found an empty queue with
nothing of its own running, and with no dispatch pass cut short. -/
theorem run_claims {c : LoopConfig} {s : LoopState} (h : (loopSystem c).Reachable s) :
    s.inFlight.length ≤ c.concurrency ∧ s.claimed = s.submitted.length ∧
    (∀ m, c.maxTasks = some m → s.claimed ≤ m) ∧
    (∀ idle any, s.stage = .asking idle any →
      (s.LookedFor c ∨ s.deferred = true) ∧ s.inFlight.length < c.concurrency ∧
      s.limitReached c = false) ∧
    (∀ a s', (loopSystem c).step s a = some s' → s'.deferred = true →
      s.deferred = true ∨
      s.stage = .recovering ∧ (s.claiming ≠ [] ∨ a = .recover (.connection false)) ∨
      ∃ generation, s.stage = .looking generation ∧ s.generation ≠ generation) ∧
    (∀ as t, s.stop = true → (loopSystem c).run s as = some t → t.claimed ≤ s.claimed + 1) ∧
    (s.completed = some .maxTasks → c.maxTasks = some s.claimed) ∧
    (s.completed = some .batchEmpty → s.AllDone ∧ s.quiet = true ∧ s.dispatched = true) := by
  have hi := LoopState.inv_of_reachable h
  have hp := hi.pass
  refine ⟨hp.bound, hi.futures.claimed, hp.limit, ?_, ?_, ?_, ?_, ?_⟩
  · intro idle any hs
    exact ⟨hi.looks.looked (hs ▸ rfl), hp.asking idle any hs⟩
  · exact fun a s' hs hd => LoopState.deferred_of_step hs hd
  · intro as t hstop hrun
    have hrest := LoopState.claims_run hstop hrun
    have hone := s.onItsWay_le
    omega
  · intro hsaid
    have hlimit : s.limitReached c = true := (hp.said _ hsaid).2
    unfold LoopState.limitReached at hlimit
    cases hm : c.maxTasks with
    | none =>
      rw [hm] at hlimit
      cases hlimit
    | some m =>
      rw [hm] at hlimit
      have hle : m ≤ s.claimed := of_decide_eq_true hlimit
      rw [le_antisymm hle (hp.limit m hm)]
  · exact fun hsaid => (hp.said _ hsaid).2

def newWorker : LoopState where
  timeouts := noAttempt
  stage := .head
  stop := false
  lastReap := 0
  lastDispatch := 0
  dispatchOwed := false
  claimed := 0
  inFlight := []
  submitted := []
  queue := []
  current _ := none
  finished := []
  renewing := true
  granted := []
  completed := none
  faulted := false
  unconfirmedAt := none
  generation := 0
  claiming := []
  unlookedSince := none
  deferred := false
  quiet := false
  dispatched := true
  recyclingSince := none

theorem newWorker_start : newWorker.Start :=
  ⟨noAttempt_start, rfl, rfl, rfl, rfl, rfl, rfl, rfl, rfl, rfl, fun _ => rfl, rfl, rfl, rfl, rfl,
    rfl, rfl, rfl, rfl, rfl, rfl, rfl, rfl, rfl⟩

def batchOfTwo : LoopConfig where
  concurrency := 2
  maxTasks := none
  batch := true
  reapInterval := 10
  scheduleInterval := 10
  recycleDrainBudget := 10
  lockTimeout := 60
  grace := 2

/-- A claim raises and is looked for, one task is claimed and run, and the pass after it finds
nothing. -/
theorem run_claims_batch :
    ∃ s, (loopSystem batchOfTwo).Reachable s ∧ s.completed = some .batchEmpty ∧
      s.submitted = [(7, 1)] ∧ s.AllDone := by
  have hrun : ((loopSystem batchOfTwo).run newWorker [.head false, .reap .done,
      .dispatch .completed, .recover (.connection true), .prune, .beginClaim, .claim (.error true),
      .head false, .reap .done, .dispatch .completed, .recover (.connection true),
      .recovered .done, .prune, .beginClaim, .claim (.row (7, 1)), .beginClaim,
      .claim (.nothing false), .decide, .take 0, .timeouts (.enter 0 (7, 1)), .timeouts (.leave 0),
      .finish 0, .head false, .reap .done, .dispatch .completed, .recover (.connection true), .prune,
      .beginClaim, .claim (.nothing false), .decide]).map (fun s => (s.completed, s.submitted)) =
        some (some .batchEmpty, [(7, 1)]) := by decide +kernel
  obtain ⟨s, hs, hat⟩ := Option.map_eq_some_iff.mp hrun
  obtain ⟨hsaid, hsub⟩ := Prod.mk.inj hat
  have hreach := System.Reachable.of_run (M := loopSystem batchOfTwo) newWorker_start hs
  obtain ⟨-, -, -, -, -, -, -, hbatch⟩ := run_claims hreach
  exact ⟨s, hreach, hsaid, hsub, (hbatch hsaid).1⟩

end DjangoOx
