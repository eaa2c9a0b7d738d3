import Mathlib.Data.List.Basic
import Mathlib.Tactic.Common
import Mathlib.Algebra.Order.Ring.Nat

/-! Reading many keys at once: in slices, and in halves where a read fails as a whole. -/
namespace Machine

variable {α κ β ε : Type*}

/-- `l[start : start + n] for start in range(0, len(l), n)`. -/
def slices (n : ℕ) (l : List α) : List (List α) :=
  (List.range ((l.length + n - 1) / n)).map fun i => (l.drop (i * n)).take n

theorem flatten_slices_take (n k : ℕ) (l : List α) :
    ((List.range k).map fun i => (l.drop (i * n)).take n).flatten = l.take (k * n) := by
  induction k with
  | zero => simp
  | succ k ih =>
    rw [List.range_succ, List.map_append, List.flatten_append, ih, List.map_singleton,
      List.flatten_singleton, Nat.succ_mul, List.take_add]

theorem flatten_slices {n : ℕ} (hn : 0 < n) (l : List α) : (slices n l).flatten = l := by
  unfold slices
  rw [flatten_slices_take]
  apply List.take_of_length_le
  have hdiv := Nat.div_add_mod (l.length + n - 1) n
  have hmod := Nat.mod_lt (l.length + n - 1) hn
  rw [Nat.mul_comm]
  omega

theorem mem_slices {n : ℕ} (hn : 0 < n) {l : List α} {x : α} :
    x ∈ l ↔ ∃ c ∈ slices n l, x ∈ c := by
  conv_lhs => rw [← flatten_slices hn l]
  exact List.mem_flatten

/-- A dictionary updated with another. -/
def merge (old new : κ → Option β) (k : κ) : Option β := (new k).or (old k)

/-- A read of several keys that is made again in halves when it fails as a whole and the failure is
one to read on after. A key whose read fails alone is left to `alone`. -/
def readInHalves (readOn : ε → Bool) (fetch : List κ → Except ε (κ → Option β))
    (alone : κ → ε → Except ε (κ → Option β)) (keys : List κ) : Except ε (κ → Option β) :=
  match fetch keys with
  | .ok found => .ok found
  | .error e =>
    if readOn e = false then .error e
    else if h : 2 ≤ keys.length then do
      let first ← readInHalves readOn fetch alone (keys.take (keys.length / 2))
      let second ← readInHalves readOn fetch alone (keys.drop (keys.length / 2))
      return merge first second
    else
      match keys with
      -- a read of no key has no row to fail on
      | [] => .error e
      | key :: _ => alone key e
termination_by keys.length
decreasing_by
  · rw [List.length_take]
    omega
  · rw [List.length_drop]
    omega

/-- What a key is answered when it is read by itself. -/
def answerAlone (fetch : List κ → Except ε (κ → Option β))
    (alone : κ → ε → Except ε (κ → Option β)) (key : κ) : Option β :=
  match fetch [key] with
  | .ok found => found key
  | .error e =>
    match alone key e with
    | .ok found => found key
    | .error _ => none

/-- A read that succeeds answers its keys as they are answered alone, and no other key. -/
structure Local (readOn : ε → Bool) (fetch : List κ → Except ε (κ → Option β))
    (alone : κ → ε → Except ε (κ → Option β)) : Prop where
  readOn : ∀ keys e, fetch keys = .error e → readOn e = true
  none : ∀ e, fetch [] ≠ .error e
  found : ∀ keys found, fetch keys = .ok found → ∀ key,
    (key ∈ keys → ∃ one, fetch [key] = .ok one ∧ one key = found key) ∧
      (key ∉ keys → found key = Option.none)
  alone : ∀ key e, fetch [key] = .error e → ∃ one, alone key e = .ok one ∧
    ∀ other, other ≠ key → one other = Option.none

variable {readOn : ε → Bool} {fetch : List κ → Except ε (κ → Option β)}
  {alone : κ → ε → Except ε (κ → Option β)}

/-- The read ends without an error, and narrowing it down changes no key's answer. -/
theorem readInHalves_eq [DecidableEq κ] (h : Local readOn fetch alone) (keys : List κ) :
    readInHalves readOn fetch alone keys =
      .ok fun key => if key ∈ keys then answerAlone fetch alone key else none := by
  induction hn : keys.length using Nat.strongRecOn generalizing keys with
  | _ n ih =>
    rw [readInHalves]
    cases hf : fetch keys with
    | ok found =>
      dsimp only
      congr 1
      funext key
      obtain ⟨hin, hout⟩ := h.found keys found hf key
      by_cases hk : key ∈ keys
      · obtain ⟨one, hone, heq⟩ := hin hk
        rw [if_pos hk, answerAlone, hone]
        exact heq.symm
      · rw [if_neg hk]
        exact hout hk
    | error e =>
      dsimp only
      rw [if_neg (by rw [h.readOn keys e hf]; simp)]
      split
      · next hlen =>
        have htake := ih (keys.take (keys.length / 2)).length
          (by rw [List.length_take]; omega) _ rfl
        have hdrop := ih (keys.drop (keys.length / 2)).length
          (by rw [List.length_drop]; omega) _ rfl
        rw [htake, hdrop]
        change Except.ok _ = Except.ok _
        congr 1
        funext key
        have hmem : key ∈ keys ↔
            key ∈ keys.take (keys.length / 2) ∨ key ∈ keys.drop (keys.length / 2) := by
          rw [← List.mem_append, List.take_append_drop]
        unfold merge
        by_cases hfirst : key ∈ keys.take (keys.length / 2) <;>
          by_cases hsecond : key ∈ keys.drop (keys.length / 2) <;>
          simp [hmem, hfirst, hsecond]
      · next hlen =>
        match keys, hf, hlen with
        | [], hf, _ => exact absurd hf (h.none e)
        | [key], hf, _ =>
          obtain ⟨one, hone, hother⟩ := h.alone key e hf
          dsimp only
          rw [hone]
          congr 1
          funext other
          by_cases hk : other = key
          · subst hk
            rw [if_pos List.mem_cons_self, answerAlone, hf]
            dsimp only
            rw [hone]
          · rw [if_neg (by simpa using hk)]
            exact hother other hk
        | _ :: _ :: _, _, hlen => exact absurd hlen (by simp)

/-- Batch after batch, into one dictionary. -/
theorem foldlM_readInHalves [DecidableEq κ] (h : Local readOn fetch alone) (batches : List (List κ))
    (found : κ → Option β) :
    batches.foldlM (fun found batch => do
      return merge found (← readInHalves readOn fetch alone batch)) found =
      .ok fun key => if key ∈ batches.flatten then (answerAlone fetch alone key).or (found key)
        else found key := by
  induction batches generalizing found with
  | nil =>
    rw [List.foldlM_nil]
    change Except.ok _ = _
    simp
  | cons batch batches ih =>
    rw [List.foldlM_cons, readInHalves_eq h batch]
    refine (ih _).trans ?_
    congr 1
    funext key
    unfold merge
    simp only [List.flatten_cons, List.mem_append]
    by_cases hbatch : key ∈ batch <;> by_cases hrest : key ∈ batches.flatten <;>
      cases answerAlone fetch alone key <;> simp [hbatch, hrest]

theorem mapM_eq_ok {f : α → Except ε β} {l : List α} {r : List β} :
    l.mapM f = .ok r ↔ List.Forall₂ (fun x y => f x = .ok y) l r := by
  induction l generalizing r with
  | nil =>
    rw [List.mapM_nil]
    constructor
    · intro h
      cases h
      exact .nil
    · intro h
      cases h
      rfl
  | cons x l ih =>
    rw [List.mapM_cons]
    constructor
    · intro h
      cases hx : f x with
      | error e =>
        rw [hx] at h
        cases h
      | ok y =>
        cases hl : l.mapM f with
        | error e =>
          rw [hx, hl] at h
          cases h
        | ok ys =>
          rw [hx, hl] at h
          cases h
          exact .cons hx (ih.mp hl)
    · intro h
      cases h with
      | cons hx hl =>
        rw [hx, ih.mpr hl]
        rfl

theorem exists_of_mapM_eq_error {f : α → Except ε β} {l : List α} {e : ε}
    (h : l.mapM f = .error e) : ∃ x ∈ l, f x = .error e := by
  induction l with
  | nil =>
    rw [List.mapM_nil] at h
    cases h
  | cons x l ih =>
    rw [List.mapM_cons] at h
    cases hx : f x with
    | error e' =>
      rw [hx] at h
      cases h
      exact ⟨x, List.mem_cons_self, hx⟩
    | ok y =>
      cases hl : l.mapM f with
      | error e' =>
        rw [hx, hl] at h
        cases h
        obtain ⟨z, hz, hfz⟩ := ih hl
        exact ⟨z, List.mem_cons_of_mem _ hz, hfz⟩
      | ok ys =>
        rw [hx, hl] at h
        cases h

theorem eq_filterMap_of_mapM {f : α → Except ε β} {l : List α} {r : List β}
    (h : l.mapM f = .ok r) : r = l.filterMap fun x => (f x).toOption := by
  have hforall := mapM_eq_ok.mp h
  induction hforall with
  | nil => rfl
  | cons hx hl ih =>
    rw [List.filterMap_cons, hx, ← ih (mapM_eq_ok.mpr hl)]
    rfl

theorem exists_of_mapM_eq_ok {f : α → Except ε β} {l : List α} {r : List β} (h : l.mapM f = .ok r)
    {x : α} (hx : x ∈ l) : ∃ y ∈ r, f x = .ok y := by
  have hforall := mapM_eq_ok.mp h
  clear h
  induction hforall with
  | nil => cases hx
  | cons hfx _ ih =>
    rcases List.mem_cons.mp hx with rfl | hx
    · exact ⟨_, List.mem_cons_self, hfx⟩
    · obtain ⟨y, hy, hfy⟩ := ih hx
      exact ⟨y, List.mem_cons_of_mem _ hy, hfy⟩

/-- A list that maps without an error, element by element. -/
theorem mapM_of_forall {f : α → Except ε β} {g : α → β} {l : List α}
    (h : ∀ x ∈ l, f x = .ok (g x)) : l.mapM f = .ok (l.map g) := by
  rw [mapM_eq_ok]
  induction l with
  | nil => exact .nil
  | cons x l ih =>
    exact .cons (h x List.mem_cons_self) (ih fun y hy => h y (List.mem_cons_of_mem _ hy))

theorem lookup_filterMap [DecidableEq κ] (f : κ → Option β) (l : List κ) (key : κ) :
    (l.filterMap fun k => (f k).map (k, ·)).lookup key = if key ∈ l then f key else none := by
  induction l with
  | nil => rfl
  | cons k l ih =>
    rw [List.filterMap_cons]
    by_cases hk : key = k
    · subst hk
      cases hf : f key with
      | none => simp [ih, hf]
      | some v => simp
    · have hbeq : (key == k) = false := by simpa using hk
      cases hf : f k with
      | none => simp [ih, hk]
      | some v => simp [List.lookup_cons, hbeq, ih, hk]

end Machine
