import Mathlib.Data.Int.Order.Basic
import Mathlib.Data.List.Sort
import Mathlib.Data.List.Dedup
import Mathlib.Tactic.SplitIfs

/-! A local clock: an instant's label is the instant and the offset then, and the offset changes at
finitely many instants. A label the clock shows twice has two passes; one it skips has none. -/

/-- The offset at the beginning, and each change of it: when, and to what. -/
structure Offsets where
  initial : ℤ
  changes : List (ℤ × ℤ)
  sorted : changes.Pairwise fun a b => a.1 < b.1

namespace Offsets

variable {o : Offsets} {a b u v l : ℤ}

/-- The offset of the last change that has come. -/
def offsetAt (o : Offsets) (u : ℤ) : ℤ :=
  match (o.changes.filter (·.1 ≤ u)).getLast? with
  | some change => change.2
  | none => o.initial

def label (o : Offsets) (u : ℤ) : ℤ := u + o.offsetAt u

/-- The clock is set forward at an instant. -/
def Forward (o : Offsets) (u : ℤ) : Prop := o.offsetAt (u - 1) < o.offsetAt u

/-- The instants with a label, in order. -/
def instants (o : Offsets) (l : ℤ) : List ℤ :=
  (((o.initial :: o.changes.map (·.2)).map (l - ·)).filter (o.label · = l)).dedup.insertionSort (· ≤ ·)

/-- The offset a skipped label is read with: from before the change that skips it on the first pass,
and from after it on the second. -/
def gapOffset (o : Offsets) (l : ℤ) (second : Bool) : ℤ :=
  match ((o.initial :: o.changes.map (·.2)).zip o.changes).find?
      fun p => p.2.1 + p.1 ≤ l ∧ l < p.2.1 + p.2.2 with
  | some (before, _, after) => if second then after else before
  | none => o.initial

/-- The instant that a label and a pass name. A label shown once has one instant for both. -/
def instant (o : Offsets) (l : ℤ) (second : Bool) : ℤ :=
  match o.instants l, second with
  | [], _ => l - o.gapOffset l second
  | u :: _, false => u
  | [u], true => u
  | _ :: u :: _, true => u

/-- The label has been shown before. -/
def again (o : Offsets) (u : ℤ) : Bool := (o.instants (o.label u)).any (· < u)

/-- A pass names an instant: the first pass its label's first instant, the second the next one, or
the only one. -/
def Names (o : Offsets) (second : Bool) (u : ℤ) : Prop :=
  if second then
    (∃ v < u, o.label v = o.label u ∧ ∀ w < u, o.label w = o.label u → w = v) ∨
      ∀ w, o.label w = o.label u → w = u
  else ∀ w < u, o.label w ≠ o.label u

theorem offsetAt_mem (o : Offsets) (u : ℤ) : o.offsetAt u ∈ o.initial :: o.changes.map (·.2) := by
  unfold offsetAt
  split
  · next change heq =>
    have hmem := List.mem_of_mem_filter (List.mem_of_getLast? heq)
    exact List.mem_cons_of_mem _ (List.mem_map_of_mem hmem)
  · exact List.mem_cons_self

theorem mem_instants : u ∈ o.instants l ↔ o.label u = l := by
  unfold instants
  rw [List.mem_insertionSort, List.mem_dedup, List.mem_filter, decide_eq_true_eq]
  constructor
  · exact fun h => h.2
  · intro h
    refine ⟨List.mem_map.mpr ⟨o.offsetAt u, o.offsetAt_mem u, ?_⟩, h⟩
    unfold label at h
    omega

theorem pairwise_instants (o : Offsets) (l : ℤ) : (o.instants l).Pairwise (· < ·) := by
  have hle := List.pairwise_insertionSort (· ≤ ·)
    (((o.initial :: o.changes.map (·.2)).map (l - ·)).filter (o.label · = l)).dedup
  have hnodup := (List.perm_insertionSort (· ≤ ·)
    (((o.initial :: o.changes.map (·.2)).map (l - ·)).filter (o.label · = l)).dedup).nodup_iff.mpr
    (List.nodup_dedup _)
  exact hle.imp₂ (fun _ _ hab hne => lt_of_le_of_ne hab hne) hnodup

/-- The least of a sorted list is its head. -/
theorem eq_cons_of_least {xs : List ℤ} (hs : xs.Pairwise (· < ·)) (hu : u ∈ xs)
    (hleast : ∀ v ∈ xs, u ≤ v) : ∃ rest, xs = u :: rest := by
  match xs, hs, hu with
  | v :: rest, hs, hu =>
    rcases List.mem_cons.mp hu with rfl | hu
    · exact ⟨rest, rfl⟩
    · have hlt := (List.pairwise_cons.mp hs).1 u hu
      have hle := hleast v List.mem_cons_self
      omega

/-- What a pass names, its label and the pass give back. -/
theorem instant_of_names {second : Bool} (h : o.Names second u) : o.instant (o.label u) second = u := by
  have hs := o.pairwise_instants (o.label u)
  have hu : u ∈ o.instants (o.label u) := mem_instants.mpr rfl
  unfold instant
  cases second with
  | false =>
    have hfirst : ∀ w < u, o.label w ≠ o.label u := h
    obtain ⟨rest, heq⟩ := eq_cons_of_least hs hu fun v hv => by
      by_contra hlt
      exact hfirst v (by omega) (mem_instants.mp hv)
    rw [heq]
  | true =>
    have hsecond : (∃ v < u, o.label v = o.label u ∧ ∀ w < u, o.label w = o.label u → w = v) ∨
        ∀ w, o.label w = o.label u → w = u := h
    rcases hsecond with ⟨v, hvu, hv, hone⟩ | honly
    · obtain ⟨rest, heq⟩ := eq_cons_of_least hs (mem_instants.mpr hv) fun w hw => by
        by_contra hlt
        have := hone w (by omega) (mem_instants.mp hw)
        omega
      rw [heq] at hs hu
      obtain ⟨hvlt, hrest⟩ := List.pairwise_cons.mp hs
      have hur : u ∈ rest := by
        rcases List.mem_cons.mp hu with rfl | hu
        · omega
        · exact hu
      obtain ⟨rest', heq'⟩ := eq_cons_of_least hrest hur fun w hw => by
        by_contra hlt
        have hmem : w ∈ o.instants (o.label u) := heq ▸ List.mem_cons_of_mem v hw
        have := hone w (by omega) (mem_instants.mp hmem)
        have := hvlt w hw
        omega
      rw [heq, heq']
    · obtain ⟨rest, heq⟩ := eq_cons_of_least hs hu fun w hw => (honly w (mem_instants.mp hw)).ge
      match rest, heq with
      | [], heq => rw [heq]
      | w :: rest, heq =>
        have hw : w ∈ o.instants (o.label u) := by simp [heq]
        have := honly w (mem_instants.mp hw)
        rw [heq] at hs
        have := (List.pairwise_cons.mp hs).1 w List.mem_cons_self
        omega

/-- A clock that is not set forward shows every label on the way. -/
theorem exists_label (hnone : ∀ u, a < u → u ≤ b → ¬ o.Forward u) (hab : a ≤ b)
    (hlow : o.label a < l) (hhigh : l ≤ o.label b) : ∃ v, a < v ∧ v ≤ b ∧ o.label v = l := by
  obtain ⟨n, rfl⟩ : ∃ n : ℕ, b = a + n := ⟨(b - a).toNat, by omega⟩
  induction n with
  | zero =>
    rw [show a + ((0 : ℕ) : ℤ) = a by omega] at hhigh
    omega
  | succ n ih =>
    by_cases hprev : l ≤ o.label (a + n)
    · obtain ⟨v, hav, hvb, hv⟩ := ih (fun u hau hub => hnone u hau (by omega)) (by omega) hprev
      exact ⟨v, hav, by omega, hv⟩
    · have hlast := hnone (a + (n + 1 : ℕ)) (by omega) le_rfl
      unfold Forward at hlast
      rw [show a + ((n + 1 : ℕ) : ℤ) - 1 = a + n by omega] at hlast
      refine ⟨a + (n + 1 : ℕ), by omega, le_rfl, ?_⟩
      unfold label at hprev hhigh ⊢
      omega

end Offsets
