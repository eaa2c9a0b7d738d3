import Mathlib.Data.List.Induction
import Mathlib.Data.List.Nodup

/-! Things put into a store and taken out of it again: who holds them, told from the moves alone.
The moves are in the order in which they were made. -/
namespace Machine

inductive Move (ω κ : Type*)
  | put (giver : ω) (thing : κ)
  | took (taker : ω) (thing : κ)
  deriving DecidableEq, Repr

namespace Move

variable {ω κ : Type*} [DecidableEq κ] {l l₁ l₂ l₃ : List (Move ω κ)} {k : κ} {t t' a : ω}

/-- Whether the store holds the thing after one more move. -/
def after (k : κ) (held : Bool) : Move ω κ → Bool
  | put _ x => held || x = k
  | took _ x => held && x ≠ k

/-- The store holds the thing. -/
def held (k : κ) (l : List (Move ω κ)) : Bool :=
  l.foldl (after k) false

/-- Who put the thing in. -/
def givers (k : κ) (l : List (Move ω κ)) : List ω :=
  l.filterMap fun
    | put a x => if x = k then some a else none
    | took _ _ => none

/-- Who took the thing out. -/
def takers (k : κ) (l : List (Move ω κ)) : List ω :=
  l.filterMap fun
    | put _ _ => none
    | took t x => if x = k then some t else none

/-- The thing is taken only when the store holds it. -/
def Lawful (k : κ) (l : List (Move ω κ)) : Prop :=
  ∀ l₁ t l₂, l = l₁ ++ took t k :: l₂ → held k l₁ = true

@[simp] theorem held_nil : held k ([] : List (Move ω κ)) = false :=
  rfl

theorem held_append_singleton (m : Move ω κ) : held k (l ++ [m]) = after k (held k l) m := by
  simp [held]

theorem mem_givers : a ∈ givers k l ↔ put a k ∈ l := by
  unfold givers
  rw [List.mem_filterMap]
  constructor
  · rintro ⟨m, hm, h⟩
    cases m with
    | put b x =>
      simp only [Option.ite_none_right_eq_some, Option.some.injEq] at h
      rwa [← h.1, ← h.2]
    | took b x => cases h
  · exact fun h => ⟨_, h, if_pos rfl⟩

theorem held_append_puts (ks : List κ) :
    held k (l ++ ks.map (put a)) = true ↔ held k l = true ∨ k ∈ ks := by
  induction ks generalizing l with
  | nil => simp
  | cons x ks ih =>
    have := ih (l := l ++ [put a x])
    rw [List.append_assoc] at this
    rw [List.map_cons, ← List.singleton_append, this, held_append_singleton]
    by_cases hx : x = k
    · simp [after, hx]
    · simp [after, hx, Ne.symm hx]

theorem held_append_takes (ks : List κ) :
    held k (l ++ ks.map (took t)) = true ↔ held k l = true ∧ k ∉ ks := by
  induction ks generalizing l with
  | nil => simp
  | cons x ks ih =>
    have := ih (l := l ++ [took t x])
    rw [List.append_assoc] at this
    rw [List.map_cons, ← List.singleton_append, this, held_append_singleton]
    by_cases hx : x = k
    · simp [after, hx]
    · simp [after, hx, Ne.symm hx]

theorem lawful_nil : Lawful k ([] : List (Move ω κ)) := by
  intro l₁ t l₂ h
  have := congrArg List.length h
  simp at this

theorem Lawful.concat (h : Lawful k l) {m : Move ω κ}
    (hm : ∀ t, m = took t k → held k l = true) : Lawful k (l ++ [m]) := by
  intro l₁ t l₂ heq
  rcases List.eq_nil_or_concat l₂ with rfl | ⟨l₂, x, rfl⟩
  · obtain ⟨rfl, hlast⟩ := List.append_inj' heq rfl
    exact hm t (List.singleton_inj.mp hlast)
  · have heq' : l ++ [m] = (l₁ ++ took t k :: l₂) ++ [x] := by simp [heq]
    obtain ⟨rfl, -⟩ := List.append_inj' heq' rfl
    exact h l₁ t l₂ rfl

theorem Lawful.puts (h : Lawful k l) (a : ω) (ks : List κ) : Lawful k (l ++ ks.map (put a)) := by
  induction ks generalizing l with
  | nil => simpa using h
  | cons x ks ih =>
    have := ih (h.concat (m := put a x) fun t ht => by cases ht)
    rwa [List.append_assoc] at this

/-- Different things that are all there are taken at once. -/
theorem Lawful.takes (h : Lawful k l) (t : ω) (ks : List κ) (hnd : ks.Nodup)
    (hheld : k ∈ ks → held k l = true) : Lawful k (l ++ ks.map (took t)) := by
  induction ks generalizing l with
  | nil => simpa using h
  | cons x ks ih =>
    obtain ⟨hx, hnd⟩ := List.nodup_cons.mp hnd
    have hhead : Lawful k (l ++ [took t x]) := by
      refine h.concat fun t' ht => ?_
      obtain ⟨-, rfl⟩ := took.inj ht
      exact hheld List.mem_cons_self
    have := ih hhead hnd fun hk => by
      have hne : x ≠ k := fun h => hx (h ▸ hk)
      rw [held_append_singleton, hheld (List.mem_cons_of_mem _ hk)]
      simp [after, hne]
    rwa [List.append_assoc] at this

/-- Other things are taken. -/
theorem Lawful.takes_of_notMem (h : Lawful k l) (t : ω) (ks : List κ) (hk : k ∉ ks) :
    Lawful k (l ++ ks.map (took t)) := by
  induction ks generalizing l with
  | nil => simpa using h
  | cons x ks ih =>
    obtain ⟨hx, hk⟩ := not_or.mp (List.mem_cons.not.mp hk)
    have := ih (h.concat (m := took t x) fun t' ht => absurd (took.inj ht).2.symm hx) hk
    rwa [List.append_assoc] at this

/-- Nothing held appears again without being put in. -/
theorem held_of_no_givers (h : givers k l₂ = []) (hl : held k l₁ = false) :
    held k (l₁ ++ l₂) = false := by
  induction l₂ using List.reverseRecOn with
  | nil => simpa using hl
  | append_singleton l₂ m ih =>
    unfold givers at h ih
    rw [List.filterMap_append, List.append_eq_nil_iff] at h
    rw [← List.append_assoc, held_append_singleton, ih h.1]
    cases m with
    | put a x =>
      have hx : x ≠ k := by simpa using h.2
      simp [after, hx]
    | took t x => rfl

/-- Between two takers somebody put the thing back. -/
theorem Lawful.put_between (h : Lawful k (l₁ ++ took t k :: l₂ ++ took t' k :: l₃)) :
    ∃ a, put a k ∈ l₂ := by
  have hheld := h _ t' l₃ rfl
  by_contra hno
  have hgivers : givers k l₂ = [] :=
    List.eq_nil_iff_forall_not_mem.mpr fun a ha => hno ⟨a, mem_givers.mp ha⟩
  have hgone : held k (l₁ ++ [took t k]) = false := by
    rw [held_append_singleton]
    simp [after]
  have := held_of_no_givers hgivers hgone
  rw [List.append_assoc, List.singleton_append] at this
  rw [this] at hheld
  cases hheld

/-- A thing that was put in, and not again since, is still there, or one taker has it. -/
theorem Lawful.since (h : Lawful k (l₁ ++ put a k :: l₂)) (hno : givers k l₂ = []) :
    (held k (l₁ ++ put a k :: l₂) = true ∧ takers k l₂ = []) ∨
      held k (l₁ ++ put a k :: l₂) = false ∧ ∃ t, takers k l₂ = [t] := by
  induction l₂ using List.reverseRecOn with
  | nil =>
    left
    rw [held_append_singleton]
    simp [after, takers]
  | append_singleton l₂ m ih =>
    have hsplit : l₁ ++ put a k :: (l₂ ++ [m]) = l₁ ++ put a k :: l₂ ++ [m] := by simp
    rw [hsplit] at h ⊢
    have hlawful : Lawful k (l₁ ++ put a k :: l₂) := fun m₁ t m₂ heq =>
      h m₁ t (m₂ ++ [m]) (by simp [heq])
    unfold givers at hno
    rw [List.filterMap_append, List.append_eq_nil_iff] at hno
    have hlast : takers k (l₂ ++ [m]) = takers k l₂ ++ takers k [m] := List.filterMap_append
    rw [held_append_singleton, hlast]
    cases m with
    | put b x =>
      have hx : x ≠ k := by simpa using hno.2
      simpa [after, hx, takers] using ih hlawful hno.1
    | took t x =>
      by_cases hx : x = k
      · -- The store held it, so nobody had taken it.
        have hheld : held k (l₁ ++ put a k :: l₂) = true := h _ t [] (by simp [hx])
        rcases ih hlawful hno.1 with ⟨-, hnone⟩ | ⟨hgone, -⟩
        · right
          rw [hnone]
          simp [after, takers, hx]
        · rw [hheld] at hgone
          cases hgone
      · simpa [after, hx, takers] using ih hlawful hno.1

end Move

end Machine
