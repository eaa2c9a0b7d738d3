import Mathlib.Data.List.MinMax
import DjangoOx.Machine.Run
import DjangoOx.Machine.Store
import DjangoOx.Task.Row

/-! The first sighting of a schedule that anchors: the statements of `_anchor_boundary` in any number
of dispatch transactions, over a tick log with its unique key. -/
namespace DjangoOx

open Machine

/-- A row of the tick log, under the instant that its unique key holds. -/
structure TickEntry where
  task : Option TaskId
  latch : Bool
  deriving DecidableEq, Repr

/-- `_latch_instant`: 1900-01-01, in microseconds from 1970. -/
def latchInstant : ℤ := -2208988800000000

/-- How far a dispatch of the schedule is. -/
inductive AnchorPass
  | idle
  /-- The newest tick of the bounded read, made before the transaction. -/
  | bounded (last : Option ℤ)
  /-- The tick row is in. -/
  | claimed (tick : ℤ) (last : Option ℤ)
  /-- The plain read found no other tick. -/
  | seeking (tick : ℤ)
  | latched (tick : ℤ)
  /-- The read repeated under the latch. -/
  | relooked (tick : ℤ) (earliest : Option ℤ)
  | decided (tick : ℤ) (fires : Bool)
  deriving DecidableEq, Repr

structure AnchorState where
  log : Store ℤ TickEntry ℕ
  /-- The instants that a row was ever written at. -/
  index : List ℤ
  passes : ℕ → AnchorPass
  /-- The tick rows that committed, latest first. -/
  ever : List (ℤ × Option TaskId)

inductive AnchorAction
  /-- `_latest_ticks`, on any snapshot of the committed rows. -/
  | bound (worker : ℕ) (snapshot : List ℤ) (since : ℤ)
  | insert (worker : ℕ) (tick : ℤ)
  /-- The plain read of the earliest tick, on any snapshot of the committed rows. -/
  | look (worker : ℕ) (snapshot : List ℤ)
  | latch (worker : ℕ)
  | relook (worker : ℕ)
  | unlatch (worker : ℕ)
  | commit (worker : ℕ) (task : TaskId)
  /-- Any failure, a duplicate key among them; the transaction rolls back. -/
  | abort (worker : ℕ)

namespace AnchorState

def setPass (s : AnchorState) (p : ℕ) (x : AnchorPass) : AnchorState :=
  { s with passes := Function.update s.passes p x }

/-- The transaction of a pass rolls back. -/
def rollback (s : AnchorState) (p : ℕ) : AnchorState :=
  { s.setPass p .idle with log := s.log.rollback p }

/-- The instants of committed rows that a snapshot may hold. -/
def Committed (s : AnchorState) (snapshot : List ℤ) : Prop :=
  ∀ k ∈ snapshot, s.log.committed k ≠ none

instance (s : AnchorState) (snapshot : List ℤ) : Decidable (s.Committed snapshot) :=
  inferInstanceAs (Decidable (∀ k ∈ snapshot, _))

/-- `earliest_tick` as a locking read that skips what others have locked, without the rows of the
pass's own tick and latch. -/
def earliestUnlocked (s : AnchorState) (p : ℕ) (tick : ℤ) : Option ℤ :=
  (s.index.filter fun k => k ≠ tick ∧ k ≠ latchInstant ∧ s.log.Free p k ∧
    s.log.view p k ≠ none).min?

/-- The row of an instant that the read locked, if it found one. -/
def lockFound (s : AnchorState) (p : ℕ) (found : Option ℤ) : Store ℤ TickEntry ℕ :=
  match found with
  | some k => s.log.lock p k
  | none => s.log

/-- What the pass does about an earliest tick. -/
def judge (s : AnchorState) (p : ℕ) (tick earliest : ℤ) : AnchorState :=
  if tick < earliest then s.rollback p else s.setPass p (.decided tick true)

def step (s : AnchorState) : AnchorAction → Option AnchorState
  | .bound p snapshot since =>
    match s.passes p with
    | .idle =>
      if s.Committed snapshot then
        some (s.setPass p (.bounded (snapshot.filter (since ≤ ·)).max?))
      else none
    | _ => none
  | .insert p tick =>
    match s.passes p with
    | .bounded last =>
      -- another's uncommitted row of the key makes it wait, a committed one refuses it
      if s.log.Free p tick ∧ s.log.view p tick = none then
        some { s.setPass p (.claimed tick last) with
          log := s.log.write p tick (some ⟨none, false⟩)
          index := tick :: s.index }
      else none
    | _ => none
  | .look p snapshot =>
    match s.passes p with
    | .claimed tick (some _) => some (s.setPass p (.decided tick true))
    | .claimed tick none =>
      if s.Committed snapshot then
        match snapshot.min? with
        | some earliest => some (s.judge p tick earliest)
        | none => some (s.setPass p (.seeking tick))
      else none
    | _ => none
  | .latch p =>
    match s.passes p with
    | .seeking tick =>
      if s.log.Free p latchInstant ∧ s.log.view p latchInstant = none then
        some { s.setPass p (.latched tick) with
          log := s.log.write p latchInstant (some ⟨none, true⟩)
          index := latchInstant :: s.index }
      else none
    | _ => none
  | .relook p =>
    match s.passes p with
    | .latched tick =>
      let found := s.earliestUnlocked p tick
      some { s.setPass p (.relooked tick found) with log := s.lockFound p found }
    | _ => none
  | .unlatch p =>
    match s.passes p with
    | .relooked tick found =>
      let s := { s with log := s.log.write p latchInstant none }
      match found with
      | some earliest => some (s.judge p tick earliest)
      | none => some (s.setPass p (.decided tick false))
    | _ => none
  | .commit p task =>
    match s.passes p with
    | .decided tick fires =>
      let given := if fires then some task else none
      some { s.setPass p .idle with
        log := (s.log.write p tick (some ⟨given, false⟩)).commit p
        ever := (tick, given) :: s.ever }
    | _ => none
  | .abort p => some (s.rollback p)

/-- No ticks, and nothing under way. -/
def Start (s : AnchorState) : Prop :=
  (∀ k, s.log.committed k = none) ∧ (∀ k, s.log.holder k = none) ∧ (∀ p, s.passes p = .idle) ∧
    s.ever = []

end AnchorState

def anchorSystem : System AnchorState AnchorAction where
  init := AnchorState.Start
  step := AnchorState.step

/-- The instant of the tick row that the pass has put in. -/
def AnchorPass.tick : AnchorPass → Option ℤ
  | .claimed t _ | .seeking t | .latched t | .relooked t _ | .decided t _ => some t
  | _ => none

/-- The latch row of the pass is in. -/
def AnchorPass.Latching : AnchorPass → Prop
  | .latched _ | .relooked _ _ => True
  | _ => False

namespace AnchorState

variable {s s' : AnchorState} {p q : ℕ} {x : AnchorPass} {k t : ℤ}

theorem passes_setPass (s : AnchorState) (p q : ℕ) (x : AnchorPass) :
    (s.setPass p x).passes q = if q = p then x else s.passes q := by
  simp [setPass, Function.update_apply]

/-- The row of a held key: the pass's tick, its latch, or one as it is committed. -/
def Owns (s : AnchorState) (x : AnchorPass) (k : ℤ) : Prop :=
  x.tick = some k ∧ s.log.draft k = some ⟨none, false⟩ ∧ s.log.committed k = none ∨
  x.Latching ∧ k = latchInstant ∧ s.log.draft k = some ⟨none, true⟩ ∧ s.log.committed k = none ∨
  x.tick ≠ none ∧ s.log.draft k = s.log.committed k

/-- The pass's tick row is in, uncommitted. -/
def TickIn (s : AnchorState) (p : ℕ) (t : ℤ) : Prop :=
  s.log.holder t = some p ∧ s.log.draft t = some ⟨none, false⟩ ∧ s.log.committed t = none

/-- The pass holds the latch's key, and its tick is at another. -/
def LatchHeld (s : AnchorState) (p : ℕ) (t : ℤ) : Prop :=
  s.log.holder latchInstant = some p ∧ s.log.committed latchInstant = none ∧ t ≠ latchInstant

/-- What a pass may rely on. -/
def PassOk (s : AnchorState) (p : ℕ) : AnchorPass → Prop
  | .idle => True
  | .bounded last => last ≠ none → s.ever ≠ []
  | .claimed t last => s.TickIn p t ∧ (last ≠ none → s.ever ≠ [])
  | .seeking t => s.TickIn p t
  | .latched t => s.TickIn p t ∧ s.LatchHeld p t
  | .relooked t found => s.TickIn p t ∧ s.LatchHeld p t ∧ (found = none ↔ s.ever = [])
  | .decided t fires => s.TickIn p t ∧
      if fires then s.ever ≠ [] else s.log.holder latchInstant = some p ∧ s.ever = []

structure AnchorInv (s : AnchorState) : Prop where
  /-- The committed rows are the ticks that committed. -/
  committed : ∀ k e, s.log.committed k = some e → e.latch = false ∧ (k, e.task) ∈ s.ever
  ever : ∀ k task, (k, task) ∈ s.ever → s.log.committed k = some ⟨task, false⟩
  indexed : ∀ k, s.log.committed k ≠ none ∨ s.log.holder k ≠ none → k ∈ s.index
  owns : ∀ k p, s.log.holder k = some p → s.Owns (s.passes p) k
  /-- A committed row is locked under the latch. -/
  locked : ∀ k p, s.log.holder k = some p → s.log.committed k ≠ none →
    s.log.holder latchInstant = some p
  passes : ∀ p, s.PassOk p (s.passes p)
  /-- Only the first tick that committed may have no task. -/
  first : ∀ rest r, s.ever = rest ++ [r] → ∀ e ∈ rest, e.2 ≠ none

theorem AnchorInv.ever_ne_nil (hi : s.AnchorInv) (h : s.log.committed k ≠ none) : s.ever ≠ [] := by
  obtain ⟨e, he⟩ := Option.ne_none_iff_exists'.mp h
  exact List.ne_nil_of_mem (hi.committed k e he).2

theorem AnchorInv.snapshot (hi : s.AnchorInv) {snapshot : List ℤ} (h : s.Committed snapshot)
    (hne : snapshot ≠ []) : s.ever ≠ [] := by
  obtain ⟨k, hk⟩ := List.exists_mem_of_ne_nil _ hne
  exact hi.ever_ne_nil (h k hk)

/-- A pass outside its transaction holds nothing. -/
theorem AnchorInv.holder_ne (hi : s.AnchorInv) (h : (s.passes p).tick = none) (k : ℤ) :
    s.log.holder k ≠ some p := by
  intro hk
  rcases hi.owns k p hk with ⟨ht, -⟩ | ⟨hl, -⟩ | ⟨ht, -⟩
  · simp [h] at ht
  · cases hx : s.passes p <;> simp_all [AnchorPass.Latching, AnchorPass.tick]
  · exact ht h

theorem Owns.mono {x' : AnchorPass} (h : s.Owns x k) (ht : x'.tick = x.tick)
    (hl : x.Latching → x'.Latching) (hd : s'.log.draft k = s.log.draft k)
    (hc : s'.log.committed k = s.log.committed k) : s'.Owns x' k := by
  unfold Owns at h ⊢
  rw [ht, hd, hc]
  exact h.imp_right (Or.imp_left (And.imp_left hl))

theorem TickIn.mono (h : s.TickIn p t) (hh : s'.log.holder t = some p)
    (hd : s'.log.draft t = s.log.draft t) (hc : s'.log.committed t = s.log.committed t) :
    s'.TickIn p t :=
  ⟨hh, hd.trans h.2.1, hc.trans h.2.2⟩

/-- The pass of another party: what it holds is as it was. -/
theorem PassOk.mono (h : s.PassOk q x)
    (hk : ∀ k, s.log.holder k = some q → s'.log.holder k = some q ∧
      s'.log.draft k = s.log.draft k ∧ s'.log.committed k = s.log.committed k)
    (hever : s'.ever = s.ever ∨
      s.log.holder latchInstant ≠ some q ∧ s'.ever ≠ [] ∨ s.ever ≠ [] ∧ s'.ever ≠ []) :
    s'.PassOk q x := by
  have htick : ∀ {t}, s.TickIn q t → s'.TickIn q t := by
    intro t ht
    obtain ⟨hh, hd, hc⟩ := hk t ht.1
    exact ht.mono hh hd hc
  have hlatch : ∀ {t}, s.LatchHeld q t → s'.LatchHeld q t := by
    intro t ht
    obtain ⟨hh, -, hc⟩ := hk _ ht.1
    exact ⟨hh, hc.trans ht.2.1, ht.2.2⟩
  have hne : s.ever ≠ [] → s'.ever ≠ [] := by
    intro h
    rcases hever with heq | ⟨-, h'⟩ | ⟨-, h'⟩
    · rwa [heq]
    · exact h'
    · exact h'
  cases x with
  | idle => trivial
  | bounded last => exact fun hl => hne (h hl)
  | claimed t last => exact ⟨htick h.1, fun hl => hne (h.2 hl)⟩
  | seeking t => exact htick h
  | latched t => exact ⟨htick h.1, hlatch h.2⟩
  | relooked t found =>
    refine ⟨htick h.1, hlatch h.2.1, h.2.2.trans ?_⟩
    rcases hever with heq | ⟨hnot, -⟩ | ⟨h₁, h₂⟩
    · rw [heq]
    · exact absurd h.2.1.1 hnot
    · exact ⟨fun h => absurd h h₁, fun h => absurd h h₂⟩
  | decided t fires =>
    refine ⟨htick h.1, ?_⟩
    obtain ⟨-, h⟩ := h
    split_ifs at h ⊢
    · exact hne h
    · rcases hever with heq | ⟨hnot, -⟩ | ⟨hne', -⟩
      · exact ⟨(hk _ h.1).1, heq.trans h.2⟩
      · exact absurd h.1 hnot
      · exact absurd h.2 hne'

/-- A step of one party that commits nothing. -/
theorem AnchorInv.move (hi : s.AnchorInv) (hpass : s'.passes = Function.update s.passes p x)
    (hcom : s'.log.committed = s.log.committed) (hever : s'.ever = s.ever)
    (hindex : ∀ k, k ∈ s.index ∨ s'.log.holder k = some p → k ∈ s'.index)
    (hother : ∀ k q, q ≠ p → (s'.log.holder k = some q ↔ s.log.holder k = some q))
    (hdraft : ∀ k q, q ≠ p → s.log.holder k = some q → s'.log.draft k = s.log.draft k)
    (howns : ∀ k, s'.log.holder k = some p → s'.Owns x k)
    (hlocked : ∀ k, s'.log.holder k = some p → s.log.committed k ≠ none →
      s'.log.holder latchInstant = some p) (hok : s'.PassOk p x) : s'.AnchorInv where
  committed := by simpa only [hcom, hever] using hi.committed
  ever := by simpa only [hcom, hever] using hi.ever
  indexed k h := by
    rcases h with h | h
    · exact hindex k (.inl (hi.indexed k (.inl (hcom ▸ h))))
    · obtain ⟨q, hq⟩ := Option.ne_none_iff_exists'.mp h
      by_cases hqp : q = p
      · exact hindex k (.inr (hqp ▸ hq))
      · have := (hother k q hqp).mp hq
        exact hindex k (.inl (hi.indexed k (.inr (by simp [this]))))
  owns k q hq := by
    rw [hpass]
    by_cases hqp : q = p
    · subst hqp
      rw [Function.update_self]
      exact howns k hq
    · rw [Function.update_of_ne hqp]
      have hq' := (hother k q hqp).mp hq
      exact (hi.owns k q hq').mono rfl id (hdraft k q hqp hq') (by rw [hcom])
  locked k q hq hne := by
    rw [hcom] at hne
    by_cases hqp : q = p
    · subst hqp
      exact hlocked k hq hne
    · exact (hother _ q hqp).mpr (hi.locked k q ((hother k q hqp).mp hq) hne)
  passes q := by
    rw [hpass]
    by_cases hqp : q = p
    · subst hqp
      rw [Function.update_self]
      exact hok
    · rw [Function.update_of_ne hqp]
      refine (hi.passes q).mono (fun k hk => ?_) (.inl hever)
      exact ⟨(hother k q hqp).mpr hk, hdraft k q hqp hk, by rw [hcom]⟩
  first := by simpa only [hever] using hi.first

/-- The pass moves on without writing a row. -/
theorem AnchorInv.setPass (hi : s.AnchorInv) (ht : x.tick = (s.passes p).tick)
    (hl : (s.passes p).Latching → x.Latching) (hok : s.PassOk p x) : (s.setPass p x).AnchorInv := by
  refine hi.move (p := p) (x := x) rfl rfl rfl (fun k h => ?_) (fun _ _ _ => Iff.rfl)
    (fun _ _ _ _ => rfl) (fun k hk => (hi.owns k p hk).mono ht hl rfl rfl)
    (fun k hk hne => hi.locked k p hk hne) ?_
  · rcases h with h | h
    · exact h
    · have hheld : s.log.holder k = some p := h
      exact hi.indexed k (.inr (by simp [hheld]))
  · exact hok.mono (fun k hk => ⟨hk, rfl, rfl⟩) (.inl rfl)

/-- The transaction rolls back, whatever it wrote of what it held. -/
theorem AnchorInv.rollback (hi : s.AnchorInv) {log : Store ℤ TickEntry ℕ}
    (hcom : log.committed = s.log.committed)
    (hh : ∀ k q, q ≠ p → (log.holder k = some q ↔ s.log.holder k = some q))
    (hd : ∀ k q, q ≠ p → s.log.holder k = some q → log.draft k = s.log.draft k) :
    AnchorInv (rollback { s with log := log } p) := by
  have hnot : ∀ k, (log.rollback p).holder k ≠ some p := by
    intro k
    rw [Store.holder_rollback]
    split_ifs with h <;> simp [h]
  refine hi.move (p := p) (x := .idle) rfl hcom rfl (fun k h => ?_) (fun k q hq => ?_) hd
    (fun k h => absurd h (hnot k)) (fun k h => absurd h (hnot k)) trivial
  · rcases h with h | h
    · exact h
    · exact absurd h (hnot k)
  · rw [← hh k q hq]
    change (log.rollback p).holder k = some q ↔ log.holder k = some q
    rw [Store.holder_rollback]
    split_ifs with h
    · simp [h, Ne.symm hq]
    · exact Iff.rfl

/-- The tick row goes in. -/
theorem AnchorInv.insert (hi : s.AnchorInv) {last : Option ℤ} (hp : s.passes p = .bounded last)
    (hfree : s.log.Free p t) (hview : s.log.view p t = none) :
    AnchorInv { s.setPass p (.claimed t last) with
      log := s.log.write p t (some ⟨none, false⟩)
      index := t :: s.index } := by
  have hnot : ∀ k, s.log.holder k ≠ some p := hi.holder_ne (by rw [hp]; rfl)
  have hcom : s.log.committed t = none := by
    rw [Store.view_of_not_held (hnot t)] at hview
    exact hview
  have hfree' : s.log.holder t = none := hfree.resolve_right (hnot t)
  refine hi.move (p := p) (x := .claimed t last) rfl rfl rfl (fun k h => ?_) (fun k q hq => ?_)
    (fun k q _ hk => ?_) (fun k hk => ?_) (fun k hk hne => ?_) ⟨⟨?_, ?_, hcom⟩, ?_⟩
  · rcases h with h | h
    · exact List.mem_cons_of_mem _ h
    · rw [Store.holder_write] at h
      split_ifs at h with hkt
      · exact hkt ▸ List.mem_cons_self
      · exact absurd h (hnot k)
  · rw [Store.holder_write]
    split_ifs with hkt
    · simp [hkt, hfree', Ne.symm hq]
    · exact Iff.rfl
  · rw [Store.draft_write, if_neg]
    rintro rfl
    simp [hfree'] at hk
  · rw [Store.holder_write] at hk
    split_ifs at hk with hkt
    · subst hkt
      exact .inl ⟨rfl, by simp, hcom⟩
    · exact absurd hk (hnot k)
  · rw [Store.holder_write] at hk
    split_ifs at hk with hkt
    · exact absurd (hkt ▸ hcom) hne
    · exact absurd hk (hnot k)
  · simp
  · simp
  · have hok := hi.passes p
    rw [hp] at hok
    exact hok

/-- The latch row goes in. -/
theorem AnchorInv.latch (hi : s.AnchorInv) (hp : s.passes p = .seeking t)
    (hfree : s.log.Free p latchInstant) (hview : s.log.view p latchInstant = none) :
    AnchorInv { s.setPass p (.latched t) with
      log := s.log.write p latchInstant (some ⟨none, true⟩)
      index := latchInstant :: s.index } := by
  have htick : s.TickIn p t := by
    have hok := hi.passes p
    rw [hp] at hok
    exact hok
  have hne : t ≠ latchInstant := by
    rintro rfl
    rw [Store.view_of_held htick.1, htick.2.1] at hview
    cases hview
  -- a row of the latch's key that the pass held would be its own tick, or one it found
  have hcom : s.log.committed latchInstant = none := by
    by_cases hheld : s.log.holder latchInstant = some p
    · rw [Store.view_of_held hheld] at hview
      rcases hi.owns _ p hheld with ⟨-, hd, -⟩ | ⟨-, -, hd, -⟩ | ⟨-, hd⟩
      · rw [hview] at hd
        cases hd
      · rw [hview] at hd
        cases hd
      · rw [← hd, hview]
    · rwa [Store.view_of_not_held hheld] at hview
  refine hi.move (p := p) (x := .latched t) rfl rfl rfl (fun k h => ?_) (fun k q hq => ?_)
    (fun k q hq hk => ?_) (fun k hk => ?_) (fun k _ _ => ?_) ⟨⟨?_, ?_, htick.2.2⟩, ?_, hcom, hne⟩
  · rcases h with h | h
    · exact List.mem_cons_of_mem _ h
    · rw [Store.holder_write] at h
      split_ifs at h with hkl
      · exact hkl ▸ List.mem_cons_self
      · exact List.mem_cons_of_mem _ (hi.indexed k (.inr (by simp [h])))
  · rw [Store.holder_write]
    split_ifs with hkl
    · subst hkl
      rcases hfree with h | h <;> simp [h, Ne.symm hq]
    · exact Iff.rfl
  · rw [Store.draft_write, if_neg]
    rintro rfl
    rcases hfree with h | h
    · simp [h] at hk
    · exact hq (Option.some.inj (hk.symm.trans h))
  · rw [Store.holder_write] at hk
    split_ifs at hk with hkl
    · exact .inr (.inl ⟨trivial, hkl, by simp [hkl], hkl ▸ hcom⟩)
    · have hown := hi.owns k p hk
      rw [hp] at hown
      refine hown.mono rfl (fun h => h.elim) ?_ rfl
      rw [Store.draft_write, if_neg hkl]
  · simp
  · simp [htick.1]
  · simp [hne, htick.2.1]
  · simp

/-- The read under the latch misses no tick that committed: whoever has locked one holds the
latch. -/
theorem AnchorInv.earliestUnlocked_eq_none (hi : s.AnchorInv) (hp : s.passes p = .latched t) :
    s.earliestUnlocked p t = none ↔ s.ever = [] := by
  obtain ⟨htick, hlatch⟩ : s.TickIn p t ∧ s.LatchHeld p t := by
    have hok := hi.passes p
    rw [hp] at hok
    exact hok
  have hview : ∀ k, k ≠ t → k ≠ latchInstant → s.log.view p k = s.log.committed k := by
    intro k hkt hkl
    by_cases hheld : s.log.holder k = some p
    · rw [Store.view_of_held hheld]
      have hown := hi.owns k p hheld
      rw [hp] at hown
      rcases hown with ⟨heq, -⟩ | ⟨-, heq, -⟩ | ⟨-, hd⟩
      · exact absurd (Option.some.inj heq).symm hkt
      · exact absurd heq hkl
      · exact hd
    · exact Store.view_of_not_held hheld
  unfold earliestUnlocked
  rw [List.min?_eq_none_iff, List.filter_eq_nil_iff]
  constructor
  · intro h
    by_contra hne
    obtain ⟨⟨k, task⟩, hmem⟩ := List.exists_mem_of_ne_nil _ hne
    have hcom := hi.ever k task hmem
    have hkt : k ≠ t := by
      rintro rfl
      simp [htick.2.2] at hcom
    have hkl : k ≠ latchInstant := by
      rintro rfl
      simp [hlatch.2.1] at hcom
    refine h k (hi.indexed k (.inl (by simp [hcom]))) (decide_eq_true ⟨hkt, hkl, ?_, ?_⟩)
    · cases hh : s.log.holder k with
      | none => exact .inl hh
      | some q =>
        have hq := hi.locked k q hh (by simp [hcom])
        exact .inr (hh.trans (hq.symm.trans hlatch.1))
    · rw [hview k hkt hkl, hcom]
      simp
  · intro hever k _ hkeep
    obtain ⟨hkt, hkl, -, hne⟩ := of_decide_eq_true hkeep
    rw [hview k hkt hkl] at hne
    exact hi.ever_ne_nil hne hever

theorem mem_earliestUnlocked (h : s.earliestUnlocked p t = some k) :
    k ∈ s.index ∧ k ≠ t ∧ k ≠ latchInstant ∧ s.log.Free p k ∧ s.log.view p k ≠ none := by
  unfold earliestUnlocked at h
  obtain ⟨hmem, -⟩ := List.min?_eq_some_iff.mp h
  obtain ⟨hindex, hkeep⟩ := List.mem_filter.mp hmem
  exact ⟨hindex, of_decide_eq_true hkeep⟩

theorem AnchorInv.relook (hi : s.AnchorInv) (hp : s.passes p = .latched t) :
    AnchorInv { s.setPass p (.relooked t (s.earliestUnlocked p t)) with
      log := s.lockFound p (s.earliestUnlocked p t) } := by
  obtain ⟨htick, hlatch⟩ : s.TickIn p t ∧ s.LatchHeld p t := by
    have hok := hi.passes p
    rw [hp] at hok
    exact hok
  have hnone := hi.earliestUnlocked_eq_none hp
  have hown : ∀ k, s.log.holder k = some p → s.Owns (.latched t) k := fun k hk => hp ▸ hi.owns k p hk
  cases hfound : s.earliestUnlocked p t with
  | none =>
    exact hi.setPass (p := p) (x := .relooked t none) (by rw [hp]; rfl) (fun _ => trivial)
      ⟨htick, hlatch, hfound ▸ hnone⟩
  | some e =>
    obtain ⟨hindex, het, hel, hfree, hview⟩ := mem_earliestUnlocked hfound
    rw [hfound] at hnone
    refine hi.move (p := p) (x := .relooked t (some e)) rfl rfl rfl (fun k h => ?_)
      (fun k q hq => ?_) (fun k q hq hk => ?_) (fun k hk => ?_) (fun k _ _ => ?_)
      ⟨⟨?_, ?_, htick.2.2⟩, ⟨?_, hlatch.2⟩, hnone⟩
    · rcases h with h | h
      · exact h
      · change (s.log.lock p e).holder k = some p at h
        rw [Store.holder_lock] at h
        split_ifs at h with hke
        · exact hke ▸ hindex
        · exact hi.indexed k (.inr (by simp [h]))
    · change (s.log.lock p e).holder k = some q ↔ _
      rw [Store.holder_lock]
      split_ifs with hke
      · subst hke
        rcases hfree with h | h <;> simp [h, Ne.symm hq]
      · exact Iff.rfl
    · change (s.log.lock p e).draft k = _
      unfold Store.lock
      rw [Store.draft_write, if_neg]
      rintro rfl
      rcases hfree with h | h
      · simp [h] at hk
      · exact hq (Option.some.inj (hk.symm.trans h))
    · change (s.log.lock p e).holder k = some p at hk
      by_cases hke : k = e
      · -- what the read locked is a committed row, as it is
        subst hke
        refine .inr (.inr ⟨by simp [AnchorPass.tick], ?_⟩)
        change (s.log.lock p k).draft k = s.log.committed k
        unfold Store.lock
        rw [Store.draft_write, if_pos rfl]
        by_cases hheld : s.log.holder k = some p
        · rw [Store.view_of_held hheld]
          rcases hown k hheld with ⟨heq, -⟩ | ⟨-, heq, -⟩ | ⟨-, hd⟩
          · exact absurd (Option.some.inj heq).symm het
          · exact absurd heq hel
          · exact hd
        · exact Store.view_of_not_held hheld
      · rw [Store.holder_lock, if_neg hke] at hk
        refine (hown k hk).mono rfl (fun _ => trivial) ?_ rfl
        change (s.log.lock p e).draft k = s.log.draft k
        unfold Store.lock
        rw [Store.draft_write, if_neg hke]
    · change (s.log.lock p e).holder latchInstant = some p
      simp [hlatch.1]
    · change (s.log.lock p e).holder t = some p
      simp [htick.1]
    · change (s.log.lock p e).draft t = _
      unfold Store.lock
      rw [Store.draft_write, if_neg (Ne.symm het)]
      exact htick.2.1
    · change (s.log.lock p e).holder latchInstant = some p
      simp [hlatch.1]

/-- The latch row is deleted: its key is held as before, with nothing in it. -/
theorem AnchorInv.unlatch (hi : s.AnchorInv) {found : Option ℤ} {fires : Bool}
    (hp : s.passes p = .relooked t found) (hf : fires = true ↔ s.ever ≠ []) :
    AnchorInv { s.setPass p (.decided t fires) with log := s.log.write p latchInstant none } := by
  obtain ⟨htick, hlatch, -⟩ : s.TickIn p t ∧ s.LatchHeld p t ∧ (found = none ↔ s.ever = []) := by
    have hok := hi.passes p
    rw [hp] at hok
    exact hok
  refine hi.move (p := p) (x := .decided t fires) rfl rfl rfl (fun k h => ?_) (fun k q hq => ?_)
    (fun k q hq hk => ?_) (fun k hk => ?_) (fun k _ _ => ?_) ⟨⟨?_, ?_, htick.2.2⟩, ?_⟩
  · rcases h with h | h
    · exact h
    · rw [Store.holder_write] at h
      split_ifs at h with hkl
      · exact hi.indexed k (.inr (by simp [hkl, hlatch.1]))
      · exact hi.indexed k (.inr (by simp [h]))
  · rw [Store.holder_write]
    split_ifs with hkl
    · simp [hkl, hlatch.1, Ne.symm hq]
    · exact Iff.rfl
  · rw [Store.draft_write, if_neg]
    rintro rfl
    exact hq (Option.some.inj (hk.symm.trans hlatch.1))
  · by_cases hkl : k = latchInstant
    · subst hkl
      exact .inr (.inr ⟨by simp [AnchorPass.tick], by simp [hlatch.2.1]⟩)
    · rw [Store.holder_write, if_neg hkl] at hk
      have hown := hi.owns k p hk
      rw [hp] at hown
      have hd : (s.log.write p latchInstant none).draft k = s.log.draft k := by
        rw [Store.draft_write, if_neg hkl]
      rcases hown with ⟨heq, hrow⟩ | ⟨-, heq, -⟩ | ⟨-, hkept⟩
      · exact .inl ⟨heq, hd.trans hrow.1, hrow.2⟩
      · exact absurd heq hkl
      · exact .inr (.inr ⟨by simp [AnchorPass.tick], hd.trans hkept⟩)
  · simp
  · simp [htick.1]
  · rw [Store.draft_write, if_neg hlatch.2.2]
    exact htick.2.1
  · split_ifs with hfires
    · exact hf.mp hfires
    · refine ⟨by simp, ?_⟩
      by_contra hne
      exact hfires (hf.mpr hne)

/-- What a commit makes of the log: the pass's own tick, and nothing else. -/
theorem AnchorInv.committed_commit (hi : s.AnchorInv) {fires : Bool} (given : Option TaskId)
    (hp : s.passes p = .decided t fires) :
    ((s.log.write p t (some ⟨given, false⟩)).commit p).committed k =
      if k = t then some ⟨given, false⟩ else s.log.committed k := by
  rw [Store.committed_commit, Store.view_write]
  split_ifs with hkt
  · rfl
  · by_cases hheld : s.log.holder k = some p
    · rw [Store.view_of_held hheld]
      have hown := hi.owns k p hheld
      rw [hp] at hown
      rcases hown with ⟨heq, -⟩ | ⟨hl, -⟩ | ⟨-, hd⟩
      · exact absurd (Option.some.inj heq).symm hkt
      · exact hl.elim
      · exact hd
    · exact Store.view_of_not_held hheld

theorem AnchorInv.commit (hi : s.AnchorInv) {fires : Bool} {given : Option TaskId}
    (hp : s.passes p = .decided t fires) (hg : fires = true → given ≠ none) :
    AnchorInv { s.setPass p .idle with
      log := (s.log.write p t (some ⟨given, false⟩)).commit p
      ever := (t, given) :: s.ever } := by
  have hok := hi.passes p
  rw [hp] at hok
  obtain ⟨htick, hdecided⟩ := hok
  have hcom := fun k => hi.committed_commit (k := k) given hp
  have hholder : ∀ k q, ((s.log.write p t (some ⟨given, false⟩)).commit p).holder k = some q ↔
      q ≠ p ∧ s.log.holder k = some q := by
    intro k q
    rw [Store.holder_commit, Store.holder_write]
    by_cases hkt : k = t
    · subst hkt
      simp [htick.1]
      tauto
    · rw [if_neg hkt]
      split_ifs with h
      · simp [h]
        tauto
      · refine ⟨fun hq => ⟨?_, hq⟩, fun hq => hq.2⟩
        rintro rfl
        exact h hq
  refine ⟨fun k e he => ?_, fun k task h => ?_, fun k h => ?_, fun k q hq => ?_,
    fun k q hq hne => ?_, fun q => ?_, fun rest r heq e he => ?_⟩
  · have he' := (hcom k).symm.trans he
    split_ifs at he' with hkt
    · obtain rfl := Option.some.inj he'
      exact ⟨rfl, hkt ▸ List.mem_cons_self⟩
    · obtain ⟨hl, hmem⟩ := hi.committed k e he'
      exact ⟨hl, List.mem_cons_of_mem _ hmem⟩
  · refine (hcom k).trans ?_
    rcases List.mem_cons.mp h with h | h
    · obtain ⟨rfl, rfl⟩ := Prod.mk.inj h
      exact if_pos rfl
    · have hold := hi.ever k task h
      rw [if_neg]
      · exact hold
      · rintro rfl
        simp [htick.2.2] at hold
  · rcases h with h | h
    · by_cases hkt : k = t
      · subst hkt
        exact hi.indexed k (.inr (by simp [htick.1]))
      · have hne : s.log.committed k ≠ none := by
          intro hnone
          exact h (((hcom k).trans (if_neg hkt)).trans hnone)
        exact hi.indexed k (.inl hne)
    · obtain ⟨q, hq⟩ := Option.ne_none_iff_exists'.mp h
      have := ((hholder k q).mp hq).2
      exact hi.indexed k (.inr (by simp [this]))
  · obtain ⟨hqp, hheld⟩ := (hholder k q).mp hq
    have hkt : k ≠ t := by
      rintro rfl
      exact hqp (Option.some.inj (hheld.symm.trans htick.1))
    change Owns _ ((s.setPass p .idle).passes q) k
    rw [passes_setPass, if_neg hqp]
    refine (hi.owns k q hheld).mono rfl id ?_ ((hcom k).trans (if_neg hkt))
    change (s.log.write p t _).draft k = _
    rw [Store.draft_write, if_neg hkt]
  · obtain ⟨hqp, hheld⟩ := (hholder k q).mp hq
    have hkt : k ≠ t := by
      rintro rfl
      exact hqp (Option.some.inj (hheld.symm.trans htick.1))
    refine (hholder _ q).mpr ⟨hqp, hi.locked k q hheld fun hnone => hne ?_⟩
    exact ((hcom k).trans (if_neg hkt)).trans hnone
  · change PassOk _ q ((s.setPass p .idle).passes q)
    rw [passes_setPass]
    split_ifs with hqp
    · trivial
    · refine (hi.passes q).mono (fun k hk => ?_) ?_
      · have hkt : k ≠ t := by
          rintro rfl
          exact hqp (Option.some.inj (hk.symm.trans htick.1))
        refine ⟨(hholder k q).mpr ⟨hqp, hk⟩, ?_, (hcom k).trans (if_neg hkt)⟩
        change (s.log.write p t _).draft k = _
        rw [Store.draft_write, if_neg hkt]
      · -- a first sighting commits under the latch, anything else after it
        right
        split_ifs at hdecided with hfires
        · exact .inr ⟨hdecided, by simp⟩
        · refine .inl ⟨fun hq => hqp ?_, by simp⟩
          exact Option.some.inj (hq.symm.trans hdecided.1)
  · change (t, given) :: s.ever = rest ++ [r] at heq
    cases rest with
    | nil => cases he
    | cons e' rest =>
      obtain ⟨rfl, htail⟩ := List.cons.inj heq
      rcases List.mem_cons.mp he with rfl | he
      · split_ifs at hdecided with hfires
        · exact hg hfires
        · rw [hdecided.2] at htail
          simp at htail
      · exact hi.first rest r htail e he

theorem anchor_of_start (h : s.Start) : s.AnchorInv := by
  obtain ⟨hc, hh, hp, he⟩ := h
  refine ⟨by simp [hc], by simp [he], by simp [hc, hh], by simp [hh], by simp [hh], fun p => ?_,
    by simp [he]⟩
  rw [hp p]
  trivial

theorem anchor_step {a : AnchorAction} (hi : s.AnchorInv) (h : step s a = some s') :
    s'.AnchorInv := by
  have hrollback : ∀ p, (s.rollback p).AnchorInv := by
    intro p
    have h : AnchorInv (rollback { s with log := s.log } p) :=
      hi.rollback rfl (fun _ _ _ => Iff.rfl) fun _ _ _ _ => rfl
    exact h
  cases a with
  | bound p snapshot since =>
    simp only [step] at h
    split at h
    · next hp =>
      obtain ⟨hs, h⟩ := Option.ite_none_right_eq_some.mp h
      obtain rfl := Option.some.inj h
      refine hi.setPass (by rw [hp]; rfl) (by rw [hp]; exact id) fun hne => ?_
      apply hi.snapshot hs
      rintro rfl
      exact hne rfl
    · cases h
  | insert p t =>
    simp only [step] at h
    split at h
    · next last hp =>
      obtain ⟨⟨hfree, hview⟩, h⟩ := Option.ite_none_right_eq_some.mp h
      obtain rfl := Option.some.inj h
      exact hi.insert hp hfree hview
    · cases h
  | look p snapshot =>
    have hok := hi.passes p
    simp only [step] at h
    split at h
    · next t l hp =>
      obtain rfl := Option.some.inj h
      rw [hp] at hok
      exact hi.setPass (by rw [hp]; rfl) (by rw [hp]; exact id) ⟨hok.1, hok.2 (by simp)⟩
    · next t hp =>
      obtain ⟨hs, h⟩ := Option.ite_none_right_eq_some.mp h
      rw [hp] at hok
      split at h
      · next e he =>
        obtain rfl := Option.some.inj h
        unfold judge
        split_ifs
        · exact hrollback p
        · refine hi.setPass (by rw [hp]; rfl) (by rw [hp]; exact id) ⟨hok.1, ?_⟩
          apply hi.snapshot hs
          rintro rfl
          simp at he
      · obtain rfl := Option.some.inj h
        exact hi.setPass (by rw [hp]; rfl) (by rw [hp]; exact id) hok.1
    · cases h
  | latch p =>
    simp only [step] at h
    split at h
    · next t hp =>
      obtain ⟨⟨hfree, hview⟩, h⟩ := Option.ite_none_right_eq_some.mp h
      obtain rfl := Option.some.inj h
      exact hi.latch hp hfree hview
    · cases h
  | relook p =>
    simp only [step] at h
    split at h
    · next t hp =>
      obtain rfl := Option.some.inj h
      exact hi.relook hp
    · cases h
  | unlatch p =>
    simp only [step] at h
    split at h
    · next t found hp =>
      have hok := hi.passes p
      rw [hp] at hok
      obtain ⟨-, hlatch, hnone⟩ := hok
      split at h
      · next e =>
        obtain rfl := Option.some.inj h
        have hne : s.ever ≠ [] := fun he => by simpa using hnone.mpr he
        unfold judge
        split_ifs
        · refine hi.rollback rfl (fun k q hq => ?_) fun k q hq hk => ?_
          · rw [Store.holder_write]
            split_ifs with hkl
            · simp [hkl, hlatch.1, Ne.symm hq]
            · exact Iff.rfl
          · rw [Store.draft_write, if_neg]
            rintro rfl
            exact hq (Option.some.inj (hk.symm.trans hlatch.1))
        · exact hi.unlatch hp (by simp [hne])
      · obtain rfl := Option.some.inj h
        exact hi.unlatch hp (by simp [hnone.mp rfl])
    · cases h
  | commit p task =>
    simp only [step] at h
    split at h
    · next t fires hp =>
      obtain rfl := Option.some.inj h
      exact hi.commit hp fun hf => by simp [hf]
    · cases h
  | abort p =>
    obtain rfl := Option.some.inj h
    exact hrollback p

end AnchorState

/-- Of the ticks of a schedule that anchors, only the first one that commits may carry no task: the
committed rows are those ticks, each at an instant of its own, and no transaction sees a latch row
that is not its own. -/
theorem first_sighting_anchors_once {s : AnchorState} (hs : anchorSystem.Reachable s) :
    (∀ k task, s.log.committed k = some ⟨task, false⟩ ↔ (k, task) ∈ s.ever) ∧
    (∀ k, s.log.committed k = some ⟨none, false⟩ → ∃ rest, s.ever = rest ++ [(k, none)]) ∧
    (∀ rest r, s.ever = rest ++ [r] → ∀ e ∈ rest, e.2.isSome) ∧
    ∀ q k e, s.log.view q k = some e → e.latch = true → s.log.holder k = some q := by
  have hi : s.AnchorInv := hs.invariant AnchorState.AnchorInv
    (fun _ hs => AnchorState.anchor_of_start hs) fun _ _ _ hi hs => AnchorState.anchor_step hi hs
  refine ⟨fun k task => ⟨fun h => (hi.committed k _ h).2, hi.ever k task⟩, fun k h => ?_,
    fun rest r heq e he => Option.isSome_iff_ne_none.mpr (hi.first rest r heq e he),
    fun q k e hview hlatch => ?_⟩
  · have hmem := (hi.committed k _ h).2
    obtain ⟨rest, r, heq⟩ : ∃ rest r, s.ever = rest ++ [r] :=
      ⟨_, _, (List.dropLast_append_getLast (List.ne_nil_of_mem hmem)).symm⟩
    rw [heq] at hmem ⊢
    rcases List.mem_append.mp hmem with hrest | hlast
    · exact absurd rfl (hi.first rest r heq _ hrest)
    · rw [List.mem_singleton.mp hlast]
      exact ⟨rest, rfl⟩
  · by_contra hnot
    rw [Store.view_of_not_held hnot] at hview
    rw [(hi.committed k e hview).1] at hlatch
    cases hlatch

/-- No ticks and no passes. -/
def noTicks : AnchorState where
  log := .idle fun _ => none
  index := []
  passes _ := .idle
  ever := []

/-- Two workers on either side of a minute, both before any tick is committed: the second waits for
the first one's latch, finds its anchor, and fires. -/
theorem first_sighting_anchors_once_minute :
    ∃ s, anchorSystem.run noTicks
        [.bound 0 [] 0, .bound 1 [] 0, .insert 0 60, .insert 1 120, .look 0 [], .look 1 [],
          .latch 0, .relook 0, .unlatch 0, .commit 0 7, .latch 1, .relook 1, .unlatch 1,
          .commit 1 8] = some s ∧
      s.ever = [(120, some 8), (60, none)] ∧
      s.log.committed 60 = some ⟨none, false⟩ ∧ ∃ rest, s.ever = rest ++ [(60, none)] := by
  have first : ∀ s, anchorSystem.run noTicks
        [.bound 0 [] 0, .bound 1 [] 0, .insert 0 60, .insert 1 120, .look 0 [], .look 1 [],
          .latch 0, .relook 0, .unlatch 0, .commit 0 7, .latch 1, .relook 1, .unlatch 1,
          .commit 1 8] = some s →
      s.log.committed 60 = some ⟨none, false⟩ → ∃ rest, s.ever = rest ++ [(60, none)] := by
    intro s hr hk
    have hstart : noTicks.Start := ⟨fun _ => rfl, fun _ => rfl, fun _ => rfl, rfl⟩
    exact (first_sighting_anchors_once (.of_run hstart hr)).2.1 60 hk
  exact ⟨_, rfl, rfl, rfl, first _ rfl rfl⟩

end DjangoOx
