import Mathlib.Logic.Function.Basic
import Mathlib.Data.List.Basic

/-! Transactions with savepoints: the writes of a transaction wait until it commits, each is made
under a lock, and a transaction may go back to a savepoint. -/
namespace Machine

/-- Where a transaction may go back to: its writes so far, and the locks it held. -/
structure Savepoint (ω κ : Type*) where
  work : List ω
  held : κ → Bool

/-- Writes are listed oldest first, savepoints innermost first. -/
structure Ledger (σ ω κ τ : Type*) where
  committed : σ
  work : τ → List ω
  saves : τ → List (Savepoint ω κ)
  holder : κ → Option τ

namespace Ledger

variable {σ ω κ τ α : Type*}

/-- No transaction has done anything. -/
def idle (c : σ) : Ledger σ ω κ τ := ⟨c, fun _ => [], fun _ => [], fun _ => none⟩

/-- What the transaction sees. -/
def view (apply : σ → ω → σ) (s : Ledger σ ω κ τ) (x : τ) : σ := (s.work x).foldl apply s.committed

/-- The transaction need not wait for the lock. -/
def Free (s : Ledger σ ω κ τ) (x : τ) (k : κ) : Prop := s.holder k = none ∨ s.holder k = some x

instance [DecidableEq τ] (s : Ledger σ ω κ τ) (x : τ) (k : κ) : Decidable (s.Free x k) :=
  inferInstanceAs (Decidable (_ ∨ _))

def lock [DecidableEq κ] (s : Ledger σ ω κ τ) (x : τ) (k : κ) : Ledger σ ω κ τ :=
  { s with holder := Function.update s.holder k (some x) }

section

variable [DecidableEq τ]

def write (s : Ledger σ ω κ τ) (x : τ) (o : ω) : Ledger σ ω κ τ :=
  { s with work := Function.update s.work x (s.work x ++ [o]) }

/-- The transaction as it stands. -/
def point (s : Ledger σ ω κ τ) (x : τ) : Savepoint ω κ := ⟨s.work x, fun k => s.holder k = some x⟩

/-- `SAVEPOINT` -/
def save (s : Ledger σ ω κ τ) (x : τ) : Ledger σ ω κ τ :=
  { s with saves := Function.update s.saves x (s.point x :: s.saves x) }

/-- `RELEASE SAVEPOINT` -/
def forget (s : Ledger σ ω κ τ) (x : τ) : Ledger σ ω κ τ :=
  { s with saves := Function.update s.saves x (s.saves x).tail }

/-- `ROLLBACK TO SAVEPOINT`, and the savepoint is released. Whether the locks taken since are kept
is the database's. -/
def undo (s : Ledger σ ω κ τ) (x : τ) (keep : Bool) : Ledger σ ω κ τ :=
  match s.saves x with
  | [] => s
  | p :: rest =>
    { s with
      work := Function.update s.work x p.work
      saves := Function.update s.saves x rest
      holder := fun k =>
        if keep = false ∧ s.holder k = some x ∧ p.held k = false then none else s.holder k }

def rollback (s : Ledger σ ω κ τ) (x : τ) : Ledger σ ω κ τ :=
  { s with
    work := Function.update s.work x []
    saves := Function.update s.saves x []
    holder := fun k => if s.holder k = some x then none else s.holder k }

def commit (apply : σ → ω → σ) (s : Ledger σ ω κ τ) (x : τ) : Ledger σ ω κ τ :=
  { s.rollback x with committed := s.view apply x }

end

/-- A transaction of one statement. -/
def put (s : Ledger σ ω κ τ) (c : σ) : Ledger σ ω κ τ := { s with committed := c }

theorem view_write [DecidableEq τ] {apply : σ → ω → σ} {s : Ledger σ ω κ τ} {x : τ} {o : ω} :
    (s.write x o).view apply x = apply (s.view apply x) o := by
  unfold view
  rw [show (s.write x o).work x = s.work x ++ [o] from Function.update_self .., List.foldl_append]
  rfl

/-- The writes of a transaction, and those a savepoint of it goes back to, are made under locks
that it holds; and a savepoint holds the locks of the ones around it. -/
structure Guarded (key : ω → Option κ) (s : Ledger σ ω κ τ) (x : τ) : Prop where
  work : ∀ o ∈ s.work x, ∀ k ∈ key o, s.holder k = some x
  saved : ∀ p ∈ s.saves x, ∀ o ∈ p.work, ∀ k ∈ key o, p.held k = true
  held : ∀ p ∈ s.saves x, ∀ k, p.held k = true → s.holder k = some x
  nested : (s.saves x).Pairwise fun p q => ∀ k, q.held k = true → p.held k = true

/-- What a transaction does leaves the others their writes, savepoints and locks. -/
structure Spares (x : τ) (s s' : Ledger σ ω κ τ) : Prop where
  work : ∀ y, y ≠ x → s'.work y = s.work y
  saves : ∀ y, y ≠ x → s'.saves y = s.saves y
  holder : ∀ y, y ≠ x → ∀ k, s.holder k = some y → s'.holder k = some y

section Spares

variable {s s' s'' : Ledger σ ω κ τ} {x : τ} {k : κ} {o : ω} {keep : Bool}

theorem Spares.refl : Spares x s s := ⟨fun _ _ => rfl, fun _ _ => rfl, fun _ _ _ h => h⟩

theorem Spares.trans (h : Spares x s s') (h' : Spares x s' s'') : Spares x s s'' where
  work y hy := (h'.work y hy).trans (h.work y hy)
  saves y hy := (h'.saves y hy).trans (h.saves y hy)
  holder y hy k hk := h'.holder y hy k (h.holder y hy k hk)

theorem spares_put {c : σ} : Spares x s (s.put c) :=
  ⟨fun _ _ => rfl, fun _ _ => rfl, fun _ _ _ h => h⟩

theorem spares_lock [DecidableEq κ] (hf : s.Free x k) : Spares x s (s.lock x k) := by
  refine ⟨fun _ _ => rfl, fun _ _ => rfl, fun y hy j hj => ?_⟩
  by_cases he : j = k
  · subst he
    rcases hf with hf | hf
    · rw [hf] at hj
      cases hj
    · rw [hf] at hj
      exact absurd (Option.some.inj hj).symm hy
  · exact (Function.update_of_ne he ..).trans hj

variable [DecidableEq τ]

theorem spares_write : Spares x s (s.write x o) :=
  ⟨fun _ hy => Function.update_of_ne hy .., fun _ _ => rfl, fun _ _ _ h => h⟩

theorem spares_save : Spares x s (s.save x) :=
  ⟨fun _ _ => rfl, fun _ hy => Function.update_of_ne hy .., fun _ _ _ h => h⟩

theorem spares_forget : Spares x s (s.forget x) :=
  ⟨fun _ _ => rfl, fun _ hy => Function.update_of_ne hy .., fun _ _ _ h => h⟩

theorem spares_rollback : Spares x s (s.rollback x) := by
  refine ⟨fun _ hy => Function.update_of_ne hy .., fun _ hy => Function.update_of_ne hy ..,
    fun y hy k hk => ?_⟩
  have hne : s.holder k ≠ some x := by
    rw [hk]
    exact fun h => hy (Option.some.inj h)
  exact (if_neg hne).trans hk

theorem spares_commit {apply : σ → ω → σ} : Spares x s (s.commit apply x) :=
  ⟨spares_rollback.work, spares_rollback.saves, spares_rollback.holder⟩

theorem spares_undo : Spares x s (s.undo x keep) := by
  unfold undo
  split
  · exact .refl
  · next p rest _ =>
    refine ⟨fun _ hy => Function.update_of_ne hy .., fun _ hy => Function.update_of_ne hy ..,
      fun y hy k hk => ?_⟩
    have hne : s.holder k ≠ some x := by
      rw [hk]
      exact fun h => hy (Option.some.inj h)
    exact (if_neg fun h => hne h.2.1).trans hk

end Spares

section Guarded

variable {key : ω → Option κ} {s s' : Ledger σ ω κ τ} {x y : τ} {k : κ} {o : ω} {keep : Bool}

theorem guarded_idle (c : σ) : (idle c : Ledger σ ω κ τ).Guarded key x where
  work _ h := by cases h
  saved _ h := by cases h
  held _ h := by cases h
  nested := .nil

/-- A transaction whose writes, savepoints and locks are left to it stays guarded. -/
theorem Guarded.of_eq (hg : s.Guarded key x) (hw : s'.work x = s.work x)
    (hs : s'.saves x = s.saves x) (hh : ∀ k, s.holder k = some x → s'.holder k = some x) :
    s'.Guarded key x where
  work o ho k hk := by
    rw [hw] at ho
    exact hh k (hg.work o ho k hk)
  saved p hp := by
    rw [hs] at hp
    exact hg.saved p hp
  held p hp k hk := by
    rw [hs] at hp
    exact hh k (hg.held p hp k hk)
  nested := by
    rw [hs]
    exact hg.nested

theorem Guarded.spared (hg : s.Guarded key y) (h : Spares x s s') (hy : y ≠ x) :
    s'.Guarded key y :=
  hg.of_eq (h.work y hy) (h.saves y hy) (h.holder y hy)

theorem holder_lock [DecidableEq κ] (hk : s.holder k = some x) (j : κ) : (s.lock x j).holder k = some x := by
  by_cases he : k = j
  · rw [he]
    exact Function.update_self ..
  · exact (Function.update_of_ne he ..).trans hk

theorem Guarded.lock [DecidableEq κ] (hg : s.Guarded key x) : (s.lock x k).Guarded key x :=
  hg.of_eq rfl rfl fun _ hj => holder_lock hj k

variable [DecidableEq τ]

theorem Guarded.write (hg : s.Guarded key x) (hk : ∀ k ∈ key o, s.holder k = some x) :
    (s.write x o).Guarded key x := by
  have hwork : (s.write x o).work x = s.work x ++ [o] := Function.update_self ..
  refine ⟨fun q hq => ?_, hg.saved, hg.held, hg.nested⟩
  rw [hwork] at hq
  rcases List.mem_append.mp hq with hq | hq
  · exact hg.work q hq
  · rw [List.mem_singleton.mp hq]
    exact hk

theorem Guarded.save (hg : s.Guarded key x) : (s.save x).Guarded key x := by
  have hsaves : (s.save x).saves x = s.point x :: s.saves x := Function.update_self ..
  refine ⟨hg.work, ?_, ?_, ?_⟩
  · rw [hsaves]
    refine List.forall_mem_cons.mpr ⟨fun o ho k hk => ?_, hg.saved⟩
    exact decide_eq_true (hg.work o ho k hk)
  · rw [hsaves]
    exact List.forall_mem_cons.mpr ⟨fun k hk => of_decide_eq_true hk, hg.held⟩
  · rw [hsaves]
    refine List.pairwise_cons.mpr ⟨fun q hq k hk => ?_, hg.nested⟩
    exact decide_eq_true (hg.held q hq k hk)

theorem Guarded.forget (hg : s.Guarded key x) : (s.forget x).Guarded key x := by
  have hsaves : (s.forget x).saves x = (s.saves x).tail := Function.update_self ..
  have hmem : ∀ p ∈ (s.saves x).tail, p ∈ s.saves x := fun p => List.mem_of_mem_tail
  refine ⟨hg.work, ?_, ?_, ?_⟩
  · rw [hsaves]
    exact fun p hp => hg.saved p (hmem p hp)
  · rw [hsaves]
    exact fun p hp => hg.held p (hmem p hp)
  · rw [hsaves]
    exact hg.nested.tail

theorem guarded_rollback : (s.rollback x).Guarded key x := by
  have hwork : (s.rollback x).work x = [] := Function.update_self ..
  have hsaves : (s.rollback x).saves x = [] := Function.update_self ..
  refine ⟨?_, ?_, ?_, ?_⟩
  · rw [hwork]
    exact fun o ho => by cases ho
  · rw [hsaves]
    exact fun p hp => by cases hp
  · rw [hsaves]
    exact fun p hp => by cases hp
  · rw [hsaves]
    exact .nil

theorem guarded_commit {apply : σ → ω → σ} : (s.commit apply x).Guarded key x :=
  (guarded_rollback (s := s)).of_eq rfl rfl fun _ h => h

theorem Guarded.undo (hg : s.Guarded key x) : (s.undo x keep).Guarded key x := by
  unfold Ledger.undo
  split
  · exact hg
  · next p rest hp =>
    have hmem : p ∈ s.saves x := hp ▸ List.mem_cons_self
    have hnested := hg.nested
    rw [hp, List.pairwise_cons] at hnested
    have hholder : ∀ k, p.held k = true →
        (if keep = false ∧ s.holder k = some x ∧ p.held k = false then none else s.holder k) =
          some x := by
      intro k hk
      rw [if_neg (by simp [hk])]
      exact hg.held p hmem k hk
    refine ⟨?_, ?_, ?_, ?_⟩
    · simp only [Function.update_self]
      exact fun o ho k hk => hholder k (hg.saved p hmem o ho k hk)
    · simp only [Function.update_self]
      exact fun q hq => hg.saved q (hp ▸ List.mem_cons_of_mem _ hq)
    · simp only [Function.update_self]
      exact fun q hq k hk => hholder k (hnested.1 q hq k hk)
    · simp only [Function.update_self]
      exact hnested.2

end Guarded

/-- A part of the tables for each lock: a write under another lock leaves it, and what a write makes
of it depends on nothing else. -/
structure Projects (apply : σ → ω → σ) (key : ω → Option κ) (proj : σ → κ → α) : Prop where
  skip : ∀ c o k, k ∉ key o → proj (apply c o) k = proj c k
  congr : ∀ c c' o k, proj c k = proj c' k → proj (apply c o) k = proj (apply c' o) k

section Projects

variable {apply : σ → ω → σ} {key : ω → Option κ} {proj : σ → κ → α} {s : Ledger σ ω κ τ} {x y : τ}
  {k : κ} {l : List ω} {c c' : σ}

theorem Projects.foldl_skip (hp : Projects apply key proj) (hl : ∀ o ∈ l, k ∉ key o) :
    proj (l.foldl apply c) k = proj c k := by
  induction l generalizing c with
  | nil => rfl
  | cons o l ih =>
    rw [List.foldl_cons, ih fun q hq => hl q (List.mem_cons_of_mem _ hq)]
    exact hp.skip c o k (hl o List.mem_cons_self)

theorem Projects.foldl_congr (hp : Projects apply key proj) (h : proj c k = proj c' k) :
    proj (l.foldl apply c) k = proj (l.foldl apply c') k := by
  induction l generalizing c c' with
  | nil => exact h
  | cons o l ih => exact ih (hp.congr c c' o k h)

/-- What a transaction has no lock on it sees as committed. -/
theorem Projects.view_of_not_held (hp : Projects apply key proj) (hg : s.Guarded key x)
    (h : s.holder k ≠ some x) : proj (s.view apply x) k = proj s.committed k :=
  hp.foldl_skip fun o ho hk => h (hg.work o ho k hk)

/-- When other tables are committed that differ under no lock of `y`, what `y` sees of a part is as
before, or is what is committed of it now. -/
theorem Projects.moved (hp : Projects apply key proj)
    (hl : ∀ o ∈ l, ∀ k ∈ key o, s.holder k = some y)
    (hc : ∀ k, s.holder k = some y → proj c' k = proj s.committed k) (k : κ) :
    proj (l.foldl apply c') k = proj (l.foldl apply s.committed) k ∨
      proj (l.foldl apply c') k = proj c' k := by
  by_cases hk : s.holder k = some y
  · exact .inl (hp.foldl_congr (hc k hk))
  · exact .inr (hp.foldl_skip fun o ho hm => hk (hl o ho k hm))

/-- A commit moves nothing under a lock of another transaction. -/
theorem Projects.commit_other (hp : Projects apply key proj) (hg : s.Guarded key x) (hxy : y ≠ x)
    (k : κ) (hk : s.holder k = some y) : proj (s.view apply x) k = proj s.committed k :=
  hp.view_of_not_held hg (by
    rw [hk]
    exact fun h => hxy (Option.some.inj h))

end Projects

end Ledger

end Machine
