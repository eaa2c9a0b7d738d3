import DjangoOx.Machine.Ledger

/-! What the code that runs a transaction of a ledger promises of each part of what it sees, and
what its own steps and those of the others make of that. -/
namespace Machine

/-- `steady` fails while an exception is on its way. Of the part that it owes a transaction promises
`owed` in place of being whole; `depth` savepoints were made since it owed nothing; and `touches`
holds of each of its writes and the part that it is to, as committed. -/
structure Promise (ω κ α : Type*) where
  steady : Prop
  owes : Option κ
  owed : α → Prop
  depth : ℕ
  touches : ω → α → Prop

namespace Ledger

variable {σ ω κ τ α : Type*} [DecidableEq κ]

/-- Every part is whole, but the one that is owed. -/
def Meets (proj : σ → κ → α) (Whole : α → Prop) (p : Promise ω κ α) (c : σ) : Prop :=
  ∀ k, if p.owes = some k then p.owed (proj c k) else Whole (proj c k)

/-- Where a transaction stands. -/
structure Standing (apply : σ → ω → σ) (key : ω → Option κ) (proj : σ → κ → α) (Whole : α → Prop)
    (s : Ledger σ ω κ τ) (x : τ) (p : Promise ω κ α) : Prop where
  guarded : s.Guarded key x
  view : p.steady → Meets proj Whole p (s.view apply x)
  owed : ∀ k ∈ p.owes, s.holder k = some x ∧ ∃ o, p.touches o (proj s.committed k)
  saved : ∀ q ∈ (s.saves x).drop p.depth, ∀ k, Whole (proj (q.work.foldl apply s.committed) k)
  touched : ∀ o ∈ s.work x, ∀ k ∈ key o, p.touches o (proj s.committed k)
  savedTouched : ∀ q ∈ s.saves x, ∀ o ∈ q.work, ∀ k ∈ key o, p.touches o (proj s.committed k)

/-- What is committed is whole, and every transaction keeps its promise. -/
structure AllStand (apply : σ → ω → σ) (key : ω → Option κ) (proj : σ → κ → α) (Whole : α → Prop)
    (s : Ledger σ ω κ τ) (p : τ → Promise ω κ α) : Prop where
  whole : ∀ k, Whole (proj s.committed k)
  each : ∀ x, Standing apply key proj Whole s x (p x)

section Own

variable {apply : σ → ω → σ} {key : ω → Option κ} {proj : σ → κ → α} {Whole : α → Prop}
  {s s' : Ledger σ ω κ τ} {x y : τ} {p p' : Promise ω κ α} {k : κ} {o : ω} {keep : Bool} {c : σ}

theorem meets_of_none (ho : p.owes = none) :
    Meets proj Whole p c ↔ ∀ k, Whole (proj c k) := by
  unfold Meets
  rw [ho]
  simp

theorem Meets.owed (h : Meets proj Whole p c) (ho : p.owes = some k) : p.owed (proj c k) := by
  have hk := h k
  rwa [if_pos ho] at hk

theorem Meets.whole (h : Meets proj Whole p c) (hk : p.owes ≠ some k) : Whole (proj c k) := by
  have hm := h k
  rwa [if_neg hk] at hm

theorem meets_of_some (ho : p.owes = some k) (hk : p.owed (proj c k))
    (h : ∀ j, j ≠ k → Whole (proj c j)) : Meets proj Whole p c := by
  intro j
  by_cases hj : j = k
  · subst hj
    rw [if_pos ho]
    exact hk
  · rw [if_neg fun he => hj (Option.some.inj (he.symm.trans ho))]
    exact h j hj

/-- The code goes on with nothing written. -/
theorem Standing.turned (hi : Standing apply key proj Whole s x p)
    (hview : p'.steady → Meets proj Whole p' (s.view apply x))
    (howed : ∀ k ∈ p'.owes, s.holder k = some x ∧ ∃ o, p.touches o (proj s.committed k))
    (hdepth : p'.depth = p.depth) (htouches : p'.touches = p.touches) :
    Standing apply key proj Whole s x p' where
  guarded := hi.guarded
  view := hview
  owed := htouches ▸ howed
  saved := hdepth ▸ hi.saved
  touched := htouches ▸ hi.touched
  savedTouched := htouches ▸ hi.savedTouched

theorem Standing.lock (hi : Standing apply key proj Whole s x p) :
    Standing apply key proj Whole (s.lock x k) x p where
  guarded := hi.guarded.lock
  view := hi.view
  owed j hj := ⟨holder_lock (hi.owed j hj).1 k, (hi.owed j hj).2⟩
  saved := hi.saved
  touched := hi.touched
  savedTouched := hi.savedTouched

theorem standing_nil (hguarded : s.Guarded key x) (hwork : s.work x = []) (hsaves : s.saves x = [])
    (hwhole : ∀ k, Whole (proj s.committed k)) (howes : p.owes = none) :
    Standing apply key proj Whole s x p := by
  refine ⟨hguarded, fun _ => ?_, by simp [howes], ?_, ?_, ?_⟩
  · unfold view
    rw [meets_of_none howes, hwork]
    exact hwhole
  · rw [hsaves, List.drop_nil]
    exact fun q hq => by cases hq
  · rw [hwork]
    exact fun o ho => by cases ho
  · rw [hsaves]
    exact fun q hq => by cases hq

variable [DecidableEq τ]

theorem Standing.wrote (hi : Standing apply key proj Whole s x p)
    (hkey : ∀ k ∈ key o, s.holder k = some x) (htouch : ∀ k ∈ key o, p.touches o (proj s.committed k))
    (hview : p'.steady → Meets proj Whole p' (apply (s.view apply x) o))
    (howed : ∀ k ∈ p'.owes, s.holder k = some x ∧ ∃ o, p.touches o (proj s.committed k))
    (hdepth : p'.depth = p.depth) (htouches : p'.touches = p.touches) :
    Standing apply key proj Whole (s.write x o) x p' := by
  have hwork : (s.write x o).work x = s.work x ++ [o] := Function.update_self ..
  refine ⟨hi.guarded.write hkey, ?_, htouches ▸ howed, hdepth ▸ hi.saved, ?_, htouches ▸ hi.savedTouched⟩
  · rw [view_write]
    exact hview
  · rw [hwork, htouches]
    intro q hq
    rcases List.mem_append.mp hq with hq | hq
    · exact hi.touched q hq
    · rw [List.mem_singleton.mp hq]
      exact htouch

theorem Standing.save (hi : Standing apply key proj Whole s x p)
    (hview : p'.steady → Meets proj Whole p' (s.view apply x))
    (howed : ∀ k ∈ p'.owes, s.holder k = some x ∧ ∃ o, p.touches o (proj s.committed k))
    (hdepth : p'.depth = p.depth + 1 ∨
      p'.depth = 0 ∧ p.depth = 0 ∧ ∀ k, Whole (proj (s.view apply x) k))
    (htouches : p'.touches = p.touches) : Standing apply key proj Whole (s.save x) x p' := by
  have hsaves : (s.save x).saves x = s.point x :: s.saves x := Function.update_self ..
  refine ⟨hi.guarded.save, hview, htouches ▸ howed, ?_, htouches ▸ hi.touched, ?_⟩
  · rw [hsaves]
    rcases hdepth with hdepth | ⟨hdepth, hzero, hwhole⟩
    · rw [hdepth, List.drop_succ_cons]
      exact hi.saved
    · have hsaved := hi.saved
      rw [hzero, List.drop_zero] at hsaved
      rw [hdepth, List.drop_zero]
      exact List.forall_mem_cons.mpr ⟨hwhole, hsaved⟩
  · rw [hsaves, htouches]
    exact List.forall_mem_cons.mpr ⟨hi.touched, hi.savedTouched⟩

theorem Standing.forget (hi : Standing apply key proj Whole s x p)
    (hview : p'.steady → Meets proj Whole p' (s.view apply x)) (howes : p'.owes = none)
    (hdepth : p'.depth = 0) (hle : p.depth ≤ 1) (htouches : p'.touches = p.touches) :
    Standing apply key proj Whole (s.forget x) x p' := by
  have hsaves : (s.forget x).saves x = (s.saves x).tail := Function.update_self ..
  refine ⟨hi.guarded.forget, hview, by simp [howes], ?_, htouches ▸ hi.touched, ?_⟩
  · rw [hsaves, hdepth, List.drop_zero]
    intro q hq
    apply hi.saved q
    rw [← List.drop_one] at hq
    exact List.drop_subset_drop_left _ hle hq
  · rw [hsaves, htouches]
    exact fun q hq => hi.savedTouched q (List.mem_of_mem_tail hq)

theorem Standing.undone {q : Savepoint ω κ} {rest : List (Savepoint ω κ)}
    (hi : Standing apply key proj Whole s x p) (hq : s.saves x = q :: rest) (howes : p'.owes = none)
    (hdepth : p'.depth = 0) (hsteady : p'.steady → p.depth = 0) (hle : p.depth ≤ 1)
    (htouches : p'.touches = p.touches) : Standing apply key proj Whole (s.undo x keep) x p' := by
  have hwork : (s.undo x keep).work x = q.work := by simp [undo, hq]
  have hsaves : (s.undo x keep).saves x = rest := by simp [undo, hq]
  have hcommitted : (s.undo x keep).committed = s.committed := by simp [undo, hq]
  have hmem : q ∈ s.saves x := hq ▸ List.mem_cons_self
  refine ⟨hi.guarded.undo, fun hst => ?_, by simp [howes], ?_, ?_, ?_⟩
  · unfold Ledger.view
    rw [meets_of_none howes, hwork, hcommitted]
    apply hi.saved q
    rw [hsteady hst]
    exact hmem
  · rw [hsaves, hcommitted, hdepth, List.drop_zero]
    intro r hr
    apply hi.saved r
    have hdrop : r ∈ (s.saves x).drop 1 := by
      rw [hq]
      exact hr
    exact List.drop_subset_drop_left _ hle hdrop
  · rw [hwork, hcommitted, htouches]
    exact hi.savedTouched q hmem
  · rw [hsaves, hcommitted, htouches]
    exact fun r hr => hi.savedTouched r (hq ▸ List.mem_cons_of_mem _ hr)

/-- A transaction that has done nothing. -/
theorem standing_rollback (hwhole : ∀ k, Whole (proj s.committed k)) (howes : p.owes = none) :
    Standing apply key proj Whole (s.rollback x) x p :=
  standing_nil guarded_rollback (Function.update_self ..) (Function.update_self ..) hwhole howes

theorem standing_commit (hwhole : ∀ k, Whole (proj (s.view apply x) k)) (howes : p.owes = none) :
    Standing apply key proj Whole (s.commit apply x) x p :=
  standing_nil guarded_commit (Function.update_self ..) (Function.update_self ..) hwhole howes

end Own

section All

variable {apply : σ → ω → σ} {key : ω → Option κ} {proj : σ → κ → α} {Whole : α → Prop}
  {s s' : Ledger σ ω κ τ} {x y : τ} {p p' : τ → Promise ω κ α} {q : Promise ω κ α} {k : κ} {c : σ}

/-- When what is committed moves, and nothing of it under the transaction's locks. -/
theorem Standing.moved (hp : Projects apply key proj) (hi : Standing apply key proj Whole s y q)
    (hs : Spares x s s') (hy : y ≠ x)
    (hc : ∀ k, s.holder k = some y → proj s'.committed k = proj s.committed k)
    (hwhole : ∀ k, Whole (proj s'.committed k)) : Standing apply key proj Whole s' y q := by
  have hwork := hs.work y hy
  have hsaves := hs.saves y hy
  have hheld : ∀ r ∈ s.saves y, ∀ o ∈ r.work, ∀ k ∈ key o, s.holder k = some y := by
    intro r hr o ho k hk
    exact hi.guarded.held r hr k (hi.guarded.saved r hr o ho k hk)
  refine ⟨hi.guarded.spared hs hy, fun hst k => ?_, fun k hk => ?_,
    fun r hr k => ?_, fun o ho k hk => ?_, fun r hr o ho k hk => ?_⟩
  · have hview := hi.view hst k
    unfold Ledger.view at hview ⊢
    rw [hwork]
    rcases hp.moved hi.guarded.work hc k with hm | hm
    · rw [hm]
      exact hview
    · split_ifs with howes
      · rw [hp.foldl_congr (hc k (hi.owed k howes).1)]
        rw [if_pos howes] at hview
        exact hview
      · rw [hm]
        exact hwhole k
  · obtain ⟨hheld, htouches⟩ := hi.owed k hk
    rw [hc k hheld]
    exact ⟨hs.holder y hy k hheld, htouches⟩
  · rw [hsaves] at hr
    have hview := hi.saved r hr k
    rcases hp.moved (hheld r (List.mem_of_mem_drop hr)) hc k with hm | hm
    · rw [hm]
      exact hview
    · rw [hm]
      exact hwhole k
  · rw [hwork] at ho
    rw [hc k (hi.guarded.work o ho k hk)]
    exact hi.touched o ho k hk
  · rw [hsaves] at hr
    rw [hc k (hheld r hr o ho k hk)]
    exact hi.savedTouched r hr o ho k hk

/-- A step of one transaction that commits nothing. -/
theorem AllStand.own (hp : Projects apply key proj) (hi : AllStand apply key proj Whole s p)
    (hs : Spares x s s') (hc : s'.committed = s.committed) (hothers : ∀ y, y ≠ x → p' y = p y)
    (hx : Standing apply key proj Whole s' x (p' x)) : AllStand apply key proj Whole s' p' := by
  have hwhole : ∀ k, Whole (proj s'.committed k) := by
    rw [hc]
    exact hi.whole
  refine ⟨hwhole, fun y => ?_⟩
  by_cases hy : y = x
  · subst hy
    exact hx
  · rw [hothers y hy]
    exact (hi.each y).moved hp hs hy (fun k _ => by rw [hc]) hwhole

theorem AllStand.commit [DecidableEq τ] (hp : Projects apply key proj) (hi : AllStand apply key proj Whole s p)
    (hwhole : ∀ k, Whole (proj (s.view apply x) k)) (hothers : ∀ y, y ≠ x → p' y = p y)
    (howes : (p' x).owes = none) : AllStand apply key proj Whole (s.commit apply x) p' := by
  refine ⟨hwhole, fun y => ?_⟩
  by_cases hy : y = x
  · subst hy
    exact standing_commit hwhole howes
  · rw [hothers y hy]
    refine (hi.each y).moved hp spares_commit hy (fun k hk => ?_) hwhole
    exact hp.commit_other (hi.each x).guarded hy k hk

/-- Somebody outside commits, under no lock of a transaction. -/
theorem AllStand.put [Nontrivial τ] (hp : Projects apply key proj)
    (hi : AllStand apply key proj Whole s p)
    (hc : ∀ k, s.holder k ≠ none → proj c k = proj s.committed k)
    (hwhole : ∀ k, Whole (proj c k)) : AllStand apply key proj Whole (s.put c) p := by
  refine ⟨hwhole, fun y => ?_⟩
  obtain ⟨x, hx⟩ := exists_ne y
  refine (hi.each y).moved hp (spares_put (x := x)) hx.symm (fun k hk => hc k ?_) hwhole
  rw [hk]
  exact Option.some_ne_none y

/-- A part that a transaction has not written to it sees as committed. -/
theorem Standing.touches_or_same (hp : Projects apply key proj)
    (hi : Standing apply key proj Whole s y q) (k : κ) :
    (∃ o ∈ s.work y, k ∈ key o ∧ q.touches o (proj s.committed k)) ∨
      proj (s.view apply y) k = proj s.committed k := by
  by_cases h : ∃ o ∈ s.work y, k ∈ key o
  · obtain ⟨o, ho, hk⟩ := h
    exact .inl ⟨o, ho, hk, hi.touched o ho k hk⟩
  · exact .inr (hp.foldl_skip fun o ho hk => h ⟨o, ho, hk⟩)

end All

end Ledger

end Machine
