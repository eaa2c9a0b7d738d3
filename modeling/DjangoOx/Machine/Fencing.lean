import Mathlib.Data.List.Basic
import Mathlib.Order.Basic
import Mathlib.Data.Nat.Basic

/-! Fencing tokens: a number that every handover moves on, and a flag that says whether the
holder of the current number may still answer. -/
namespace Machine.Fencing

structure Fence where
  token : ℕ
  live : Bool

/-- What a step does to who may answer: hand a new number out, leave the holder alone, or
shut the current holder out. -/
inductive Move
  | grant
  | keep
  | shut
  deriving DecidableEq, Repr

/-- `shut` may move the number on as well; `grant` moves it by one, and only when nobody holds it. -/
inductive Move.Allows : Move → Fence → Fence → Prop
  | grant (n : ℕ) : Allows .grant ⟨n, false⟩ ⟨n + 1, true⟩
  | keep (f : Fence) : Allows .keep f f
  | shut {f g : Fence} : f.token ≤ g.token → g.live = false → Allows .shut f g

theorem Move.Allows.token_le {m : Move} {f g : Fence} (h : m.Allows f g) : f.token ≤ g.token := by
  cases h with
  | grant n => exact Nat.le_succ n
  | keep => exact le_rfl
  | shut h _ => exact h

/-- The number `e` can never be answered again. -/
def Spent (e : ℕ) (f : Fence) : Prop :=
  e < f.token ∨ e = f.token ∧ f.live = false

theorem Spent.move {e : ℕ} {m : Move} {f g : Fence} (h : Spent e f) (hm : m.Allows f g) :
    Spent e g := by
  cases hm with
  | grant n =>
    rcases h with h | ⟨h, -⟩
    · exact .inl (Nat.lt_succ_of_lt h)
    · exact .inl (h ▸ Nat.lt_succ_self n)
  | keep => exact h
  | shut hle hl =>
    rcases h with h | ⟨h, -⟩
    · exact .inl (h.trans_le hle)
    · rcases hle.lt_or_eq with hlt | heq
      · exact .inl (h ▸ hlt)
      · exact .inr ⟨h.trans heq, hl⟩

/-- A fence that has been shut at `e` has spent `e`. -/
theorem Move.Allows.shut_spent {f g : Fence} (h : Move.shut.Allows f g) : Spent f.token g := by
  cases h with
  | shut hle hl =>
    rcases hle.lt_or_eq with hlt | heq
    · exact .inl hlt
    · exact .inr ⟨heq, hl⟩

theorem not_spent_of_live {f : Fence} (h : f.live = true) : ¬ Spent f.token f := by
  rintro (hlt | ⟨-, hl⟩)
  · exact lt_irrefl _ hlt
  · simp [h] at hl

section History

variable {ε : Type*} (kind : ε → Move) (token : ε → ℕ)

/-- Since its last grant, which handed `e` out, a history (latest first) holds only `keep`s, and
every grant before it handed out a smaller number. -/
def Holds (e : ℕ) (history : List ε) : Prop :=
  ∃ since g before, history = since ++ g :: before ∧
    (∀ x ∈ since, kind x = .keep) ∧ kind g = .grant ∧ token g = e ∧
    ∀ x ∈ before, kind x = .grant → token x < e

/-- A history fits a fence: the granted numbers went up to the fence's at most, and a live fence
is held by the last grant. -/
structure Fits (history : List ε) (f : Fence) : Prop where
  le : ∀ x ∈ history, kind x = .grant → token x ≤ f.token
  nodup : ((history.filter fun x => kind x = .grant).map token).Nodup
  held : f.live = true → Holds kind token f.token history

variable {kind token}

theorem Fits.nil (n : ℕ) : Fits kind token [] ⟨n, false⟩ :=
  ⟨by simp, by simp, by simp⟩

/-- One step of the history rule: an event that moves the fence as its kind allows, and that
carries the new number when it is a grant. -/
theorem Fits.cons {history : List ε} {f g : Fence} (h : Fits kind token history f) {x : ε}
    (hm : (kind x).Allows f g) (ht : kind x = .grant → token x = g.token) :
    Fits kind token (x :: history) g := by
  have hle : ∀ y ∈ history, kind y = .grant → token y ≤ f.token := h.le
  cases hk : kind x with
  | grant =>
    rw [hk] at hm
    have htx := ht hk
    cases hm with
    | grant n =>
      have hlt : ∀ y ∈ history, kind y = .grant → token y < n + 1 := fun y hy hg =>
        Nat.lt_succ_of_le (hle y hy hg)
      refine ⟨?_, ?_, fun _ => ⟨[], x, history, rfl, by simp, hk, htx, hlt⟩⟩
      · intro y hy hg
        rcases List.mem_cons.mp hy with rfl | hy
        · exact htx.le
        · exact (hlt y hy hg).le
      · rw [List.filter_cons_of_pos (by simpa using hk), List.map_cons, List.nodup_cons]
        refine ⟨?_, h.nodup⟩
        intro hmem
        obtain ⟨y, hy, hyx⟩ := List.mem_map.mp hmem
        obtain ⟨hy, hg⟩ := List.mem_filter.mp hy
        have := hlt y hy (by simpa using hg)
        simp only [htx] at hyx
        omega
  | keep =>
    rw [hk] at hm
    cases hm with
    | keep =>
      refine ⟨?_, ?_, ?_⟩
      · intro y hy hg
        rcases List.mem_cons.mp hy with rfl | hy
        · simp [hk] at hg
        · exact hle y hy hg
      · rw [List.filter_cons_of_neg (by simp [hk])]
        exact h.nodup
      · intro hl
        obtain ⟨since, g, before, rfl, hs, hg, he, hb⟩ := h.held hl
        refine ⟨x :: since, g, before, rfl, ?_, hg, he, hb⟩
        intro y hy
        rcases List.mem_cons.mp hy with rfl | hy
        · exact hk
        · exact hs y hy
  | shut =>
    rw [hk] at hm
    have hfg := hm.token_le
    cases hm with
    | shut _ hl =>
      refine ⟨?_, ?_, fun h => by simp [hl] at h⟩
      · intro y hy hg
        rcases List.mem_cons.mp hy with rfl | hy
        · simp [hk] at hg
        · exact (hle y hy hg).trans hfg
      · rw [List.filter_cons_of_neg (by simp [hk])]
        exact h.nodup

end History

end Machine.Fencing
