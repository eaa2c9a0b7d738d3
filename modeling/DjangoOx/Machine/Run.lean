import Mathlib.Data.List.Basic

/-! Machines with a partial step function, their finite runs, and the invariant rules. -/
namespace Machine

/-- A step that is not enabled answers `none`. -/
structure System (σ α : Type*) where
  init : σ → Prop
  step : σ → α → Option σ

variable {σ α : Type*}

namespace System

/-- Every action in turn; `none` as soon as one is not enabled. -/
def run (M : System σ α) : σ → List α → Option σ
  | s, [] => some s
  | s, a :: as => (M.step s a).bind fun s' => M.run s' as

/-- The states reached from an initial one when every step meets `C` in the state it leaves. -/
inductive ReachesBy (M : System σ α) (C : σ → α → Prop) : σ → Prop
  | init {s : σ} : M.init s → ReachesBy M C s
  | step {s : σ} {a : α} {s' : σ} :
      ReachesBy M C s → C s a → M.step s a = some s' → ReachesBy M C s'

/-- The states reached with no condition on the steps. -/
def Reachable (M : System σ α) : σ → Prop :=
  M.ReachesBy fun _ _ => True

theorem run_cons {M : System σ α} {s s' : σ} {a : α} {as : List α} (h : M.step s a = some s') :
    M.run s (a :: as) = M.run s' as := by
  simp [run, h]

theorem run_append (M : System σ α) (s : σ) (as bs : List α) :
    M.run s (as ++ bs) = (M.run s as).bind fun s' => M.run s' bs := by
  induction as generalizing s with
  | nil => rfl
  | cons a as ih =>
    simp only [List.cons_append, run, Option.bind_assoc]
    cases M.step s a with
    | none => rfl
    | some s' => exact ih s'

/-- The invariant rule: what holds at the start and is kept by the steps that meet `C`. -/
theorem ReachesBy.invariant {M : System σ α} {C : σ → α → Prop} (P : σ → Prop)
    (hinit : ∀ s, M.init s → P s)
    (hstep : ∀ s a s', P s → C s a → M.step s a = some s' → P s')
    {s : σ} (h : M.ReachesBy C s) : P s := by
  induction h with
  | init hs => exact hinit _ hs
  | step _ hc hs ih => exact hstep _ _ _ ih hc hs

theorem Reachable.init {M : System σ α} {s : σ} (h : M.init s) : M.Reachable s :=
  ReachesBy.init h

theorem Reachable.step {M : System σ α} {s s' : σ} {a : α} (h : M.Reachable s)
    (hs : M.step s a = some s') : M.Reachable s' :=
  ReachesBy.step h trivial hs

theorem Reachable.invariant {M : System σ α} (P : σ → Prop)
    (hinit : ∀ s, M.init s → P s)
    (hstep : ∀ s a s', P s → M.step s a = some s' → P s')
    {s : σ} (h : M.Reachable s) : P s :=
  ReachesBy.invariant P hinit (fun s a s' hp _ hs => hstep s a s' hp hs) h

/-- The fewer runs a condition leaves, the fewer states they reach. -/
theorem ReachesBy.mono {M : System σ α} {C D : σ → α → Prop} (hcd : ∀ s a, C s a → D s a) {s : σ}
    (h : M.ReachesBy C s) : M.ReachesBy D s := by
  induction h with
  | init hs => exact .init hs
  | step _ hc hs ih => exact ih.step (hcd _ _ hc) hs

theorem ReachesBy.reachable {M : System σ α} {C : σ → α → Prop} {s : σ}
    (h : M.ReachesBy C s) : M.Reachable s :=
  h.mono fun _ _ _ => trivial

/-- A run from a reachable state stays reachable. -/
theorem Reachable.run {M : System σ α} {s t : σ} {as : List α} (h : M.Reachable s)
    (hr : M.run s as = some t) : M.Reachable t := by
  induction as generalizing s with
  | nil => exact Option.some.inj hr ▸ h
  | cons a as ih =>
    obtain ⟨s', hs, hr⟩ := Option.bind_eq_some_iff.mp hr
    exact ih (h.step hs) hr

theorem Reachable.of_run {M : System σ α} {s t : σ} {as : List α} (hi : M.init s)
    (hr : M.run s as = some t) : M.Reachable t :=
  (Reachable.init hi).run hr

/-- The machine with only the steps that meet `C`. -/
def only (M : System σ α) (C : σ → α → Prop) [∀ s a, Decidable (C s a)] : System σ α where
  init := M.init
  step s a := if C s a then M.step s a else none

/-- A run of steps that can be checked to meet `C`, and so `D`. -/
theorem ReachesBy.run {M : System σ α} {C D : σ → α → Prop} [∀ s a, Decidable (C s a)]
    (hcd : ∀ s a, C s a → D s a) {s t : σ} {as : List α} (h : M.ReachesBy D s)
    (hr : (M.only C).run s as = some t) : M.ReachesBy D t := by
  induction as generalizing s with
  | nil => exact Option.some.inj hr ▸ h
  | cons a as ih =>
    obtain ⟨s', hs, hr⟩ := Option.bind_eq_some_iff.mp hr
    obtain ⟨hc, hs⟩ := Option.ite_none_right_eq_some.mp hs
    exact ih (h.step (hcd _ _ hc) hs) hr

theorem ReachesBy.of_run {M : System σ α} {C : σ → α → Prop} [∀ s a, Decidable (C s a)] {s t : σ}
    {as : List α} (hi : M.init s) (hr : (M.only C).run s as = some t) : M.ReachesBy C t :=
  ReachesBy.run (fun _ _ h => h) (.init hi) hr

/-- A run of actions that meet the condition in every state. -/
theorem ReachesBy.run_of_forall {M : System σ α} {C : σ → α → Prop} {s t : σ} {as : List α}
    (h : M.ReachesBy C s) (hc : ∀ s, ∀ a ∈ as, C s a) (hr : M.run s as = some t) :
    M.ReachesBy C t := by
  induction as generalizing s with
  | nil => exact Option.some.inj hr ▸ h
  | cons a as ih =>
    obtain ⟨s', hs, hr⟩ := Option.bind_eq_some_iff.mp hr
    have hstep := h.step (hc s a (by simp)) hs
    exact ih hstep (fun s a ha => hc s a (by simp [ha])) hr

end System

end Machine
