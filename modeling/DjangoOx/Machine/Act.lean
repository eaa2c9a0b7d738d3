import Mathlib.Data.List.Forall2

/-! Computations that move a state and may raise, and what holds where they end. -/
namespace Machine

/-- A computation over a state `σ` that raises an `ε` or returns an `α`. -/
abbrev Act (σ ε α : Type) := ExceptT ε (StateM σ) α

namespace Act

variable {σ ε α β γ : Type}

/-- What the computation ends with, and the state it leaves. -/
def exec (x : Act σ ε α) (s : σ) : Except ε α × σ :=
  StateT.run (ExceptT.run x) s

/-- An exception becomes a value, and nothing is raised. -/
def attempt (x : Act σ ε α) : Act σ ε (Except ε α) :=
  ExceptT.mk (StateT.bind (ExceptT.run x) fun r => pure (.ok r))

/-- `x`, told which attempt it is, and again after an error that allows it: `left` times more. -/
def rerun (again : ε → Bool) (x : ℕ → Act σ ε α) : ℕ → ℕ → Act σ ε α
  | 0, attempt => x attempt
  | left + 1, attempt => do
    match ← (x attempt).attempt with
    | .ok a => pure a
    | .error e => if again e then rerun again x left (attempt + 1) else throw e

/-- From `s`, `Q` holds of what is returned and `E` of what is raised. -/
def Holds (x : Act σ ε α) (s : σ) (Q : α → σ → Prop) (E : ε → σ → Prop) : Prop :=
  match x.exec s with
  | (.ok a, s') => Q a s'
  | (.error e, s') => E e s'

theorem exec_bind (x : Act σ ε α) (f : α → Act σ ε β) (s : σ) :
    exec (x >>= f) s =
      match x.exec s with
      | (.ok a, s') => (f a).exec s'
      | (.error e, s') => (.error e, s') := by
  change (ExceptT.bindCont f (x.exec s).1).run (x.exec s).2 = _
  rcases x.exec s with ⟨_ | _, _⟩ <;> rfl

section Rules

variable {x : Act σ ε α} {s : σ} {Q Q' : α → σ → Prop} {E E' : ε → σ → Prop}

@[simp] theorem holds_pure {a : α} : Holds (pure a : Act σ ε α) s Q E ↔ Q a s := Iff.rfl

@[simp] theorem holds_throw {e : ε} : Holds (throw e : Act σ ε α) s Q E ↔ E e s := Iff.rfl

@[simp] theorem holds_get {Q : σ → σ → Prop} : Holds (get : Act σ ε σ) s Q E ↔ Q s s := Iff.rfl

@[simp] theorem holds_modify {f : σ → σ} {Q : PUnit → σ → Prop} :
    Holds (modify f : Act σ ε PUnit) s Q E ↔ Q ⟨⟩ (f s) := Iff.rfl

@[simp] theorem holds_bind {f : α → Act σ ε β} {R : β → σ → Prop} :
    Holds (x >>= f) s R E ↔ Holds x s (fun a s' => Holds (f a) s' R E) E := by
  unfold Holds
  rw [exec_bind]
  rcases x.exec s with ⟨_ | _, _⟩ <;> rfl

@[simp] theorem holds_attempt {R : Except ε α → σ → Prop} :
    Holds x.attempt s R E ↔ Holds x s (fun a => R (.ok a)) fun e => R (.error e) := by
  change R (x.exec s).1 (x.exec s).2 ↔ _
  unfold Holds
  rcases x.exec s with ⟨_ | _, _⟩ <;> rfl

instance [∀ a s, Decidable (Q a s)] [∀ e s, Decidable (E e s)] : Decidable (Holds x s Q E) :=
  decidable_of_iff ((match x.exec s with
    | (.ok a, s') => decide (Q a s')
    | (.error e, s') => decide (E e s')) = true) (by
      unfold Holds
      rcases x.exec s with ⟨_ | _, _⟩
      · exact decide_eq_true_iff
      · exact decide_eq_true_iff)

theorem Holds.mono (h : Holds x s Q E) (hq : ∀ a s', Q a s' → Q' a s')
    (he : ∀ e s', E e s' → E' e s') : Holds x s Q' E' := by
  unfold Holds at h ⊢
  rcases hx : x.exec s with ⟨e | a, s'⟩
  · rw [hx] at h
    exact he e s' h
  · rw [hx] at h
    exact hq a s' h

/-- Sequencing: what the first computation ensures is what the second one needs. -/
theorem Holds.bind {f : α → Act σ ε β} {R : β → σ → Prop} (h : Holds x s Q E)
    (hf : ∀ a s', Q a s' → Holds (f a) s' R E') (he : ∀ e s', E e s' → E' e s') :
    Holds (x >>= f) s R E' :=
  holds_bind.mpr (h.mono hf he)

/-- A loop over a list: `I` holds of what is left of the list. -/
theorem Holds.forM {f : γ → Act σ ε PUnit} (I : List γ → σ → Prop)
    (hf : ∀ c rest s, I (c :: rest) s → Holds (f c) s (fun _ s' => I rest s') E)
    (l : List γ) {s : σ} (h : I l s) : Holds (l.forM f) s (fun _ s' => I [] s') E := by
  induction l generalizing s with
  | nil => exact h
  | cons c rest ih => exact (hf c rest s h).bind (fun _ _ => ih) fun _ _ h => h

/-- A loop that collects: `P` is kept, and every result meets `R` with its element. -/
theorem Holds.mapM {f : γ → Act σ ε β} {P : σ → Prop} {R : γ → β → Prop} {l : List γ}
    (hf : ∀ c ∈ l, ∀ s, P s → Holds (f c) s (fun b s' => P s' ∧ R c b) E) {s : σ} (h : P s) :
    Holds (l.mapM f) s (fun bs s' => P s' ∧ List.Forall₂ R l bs) E := by
  induction l generalizing s with
  | nil => exact ⟨h, .nil⟩
  | cons c rest ih =>
    rw [List.mapM_cons]
    have hrest := fun s' (h' : P s') => ih (fun d hd => hf d (by simp [hd])) h'
    refine (hf c (by simp) s h).bind (fun b s' hb => ?_) fun _ _ h => h
    refine (hrest s' hb.1).bind (fun bs s'' hbs => ?_) fun _ _ h => h
    exact ⟨hbs.1, .cons hb.2 hbs.2⟩

/-- A loop with an accumulator: `I` holds of what is left of the list and of what is collected. -/
theorem Holds.foldlM {f : β → γ → Act σ ε β} (I : List γ → β → σ → Prop)
    (hf : ∀ c rest b s, I (c :: rest) b s → Holds (f b c) s (fun b' s' => I rest b' s') E)
    (l : List γ) {b : β} {s : σ} (h : I l b s) :
    Holds (l.foldlM f b) s (fun b' s' => I [] b' s') E := by
  induction l generalizing b s with
  | nil => exact h
  | cons c rest ih => exact (hf c rest b s h).bind (fun _ _ => ih) fun _ _ h => h

theorem holds_rerun_succ {again : ε → Bool} {x : ℕ → Act σ ε α} {left attempt : ℕ} :
    Holds (rerun again x (left + 1) attempt) s Q E ↔
      Holds (x attempt) s Q fun e s' =>
        if again e then Holds (rerun again x left (attempt + 1)) s' Q E else E e s' := by
  rw [rerun, holds_bind, holds_attempt]
  have herror : ∀ e s', Holds
      (if again e then rerun again x left (attempt + 1) else throw e : Act σ ε α) s' Q E ↔
        if again e then Holds (rerun again x left (attempt + 1)) s' Q E else E e s' := by
    intro e s'
    by_cases he : again e
    · rw [if_pos he, if_pos he]
    · rw [if_neg he, if_neg he]
      exact holds_throw
  constructor
  · intro h
    exact h.mono (fun _ _ hq => hq) fun e s' he => (herror e s').mp he
  · intro h
    exact h.mono (fun _ _ hq => hq) fun e s' he => (herror e s').mpr he

/-- An attempt that raises leaves `P`, from which every attempt starts. -/
theorem Holds.rerun {again : ε → Bool} {x : ℕ → Act σ ε α} {P : σ → Prop}
    (hx : ∀ n s, P s → Holds (x n) s Q fun _ s' => P s') (left attempt : ℕ) (h : P s) :
    Holds (Act.rerun again x left attempt) s Q fun _ s' => P s' := by
  induction left generalizing attempt s with
  | zero => exact hx attempt s h
  | succ left ih =>
    rw [holds_rerun_succ]
    refine (hx attempt s h).mono (fun _ _ hq => hq) fun e s' hp => ?_
    by_cases he : again e
    · rw [if_pos he]
      exact ih (attempt + 1) hp
    · rw [if_neg he]
      exact hp

/-- It ends without an error when one of its attempts does, and only errors that allow another
attempt come before. -/
theorem Holds.rerun_of_le {again : ε → Bool} {x : ℕ → Act σ ε α} {P : σ → Prop} {n : ℕ}
    (hx : ∀ s, P s → Holds (x n) s Q fun _ _ => False) (left attempt : ℕ)
    (hbefore : ∀ m, attempt ≤ m → m < n → ∀ s, P s →
      Holds (x m) s Q fun e s' => again e = true ∧ P s')
    (hle : attempt ≤ n) (hn : n ≤ attempt + left) (h : P s) :
    Holds (Act.rerun again x left attempt) s Q fun _ _ => False := by
  induction left generalizing attempt s with
  | zero =>
    obtain rfl : attempt = n := by omega
    exact hx s h
  | succ left ih =>
    rw [holds_rerun_succ]
    rcases Nat.eq_or_lt_of_le hle with rfl | hlt
    · exact (hx s h).mono (fun _ _ hq => hq) fun _ _ hfalse => hfalse.elim
    · refine (hbefore attempt (Nat.le_refl _) hlt s h).mono (fun _ _ hq => hq) fun e s' he => ?_
      rw [if_pos he.1]
      exact ih (attempt + 1) (fun m hm => hbefore m (by omega)) hlt (by omega) he.2

end Rules

/-- However it ends, the computation leaves `P` where it found it. -/
def Keeps (P : σ → Prop) (x : Act σ ε α) : Prop :=
  ∀ s, P s → Holds x s (fun _ s' => P s') fun _ s' => P s'

namespace Keeps

variable {P : σ → Prop} {x : Act σ ε α}

theorem pure (a : α) : Keeps P (Pure.pure a : Act σ ε α) := fun _ h => h

theorem throw (e : ε) : Keeps P (MonadExcept.throw e : Act σ ε α) := fun _ h => h

theorem get : Keeps P (MonadState.get : Act σ ε σ) := fun _ h => h

theorem modify {f : σ → σ} (hf : ∀ s, P s → P (f s)) :
    Keeps P (modify f : Act σ ε PUnit) := hf

theorem bind {f : α → Act σ ε β} (hx : Keeps P x) (hf : ∀ a, Keeps P (f a)) :
    Keeps P (x >>= f) := by
  intro s h
  exact (hx s h).bind (fun a s' h' => hf a s' h') fun _ _ h' => h'

theorem attempt (hx : Keeps P x) : Keeps P x.attempt := by
  intro s h
  rw [holds_attempt]
  exact hx s h

theorem ite {c : Prop} [Decidable c] {y : Act σ ε α} (hx : Keeps P x) (hy : Keeps P y) :
    Keeps P (if c then x else y) := by
  split_ifs
  · exact hx
  · exact hy

theorem forM {f : γ → Act σ ε PUnit} (hf : ∀ c, Keeps P (f c)) (l : List γ) :
    Keeps P (l.forM f) := by
  intro s h
  exact Holds.forM (fun _ => P) (fun c _ s' h' => hf c s' h') l h

theorem mapM {f : γ → Act σ ε β} (hf : ∀ c, Keeps P (f c)) (l : List γ) :
    Keeps P (l.mapM f) := by
  induction l with
  | nil => exact pure []
  | cons c rest ih =>
    rw [List.mapM_cons]
    exact bind (hf c) fun b => bind ih fun bs => pure (b :: bs)

theorem exec (hx : Keeps P x) {s : σ} (h : P s) : P (x.exec s).2 := by
  have hs := hx s h
  unfold Holds at hs
  split at hs
  · next heq =>
    rw [heq]
    exact hs
  · next heq =>
    rw [heq]
    exact hs

end Keeps

end Act

end Machine
