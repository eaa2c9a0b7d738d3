import Mathlib.Data.List.Perm.Subperm
import Mathlib.Data.List.Nodup
import Mathlib.Data.Nat.Basic
import Mathlib.Order.Basic
import Mathlib.Order.Lattice

/-! A table with an ordered key: reads in key order, conditional updates and what they changed. -/
namespace Machine

/-- The rows, and the keys that have one, in order. -/
structure Table (κ ρ : Type*) [LinearOrder κ] where
  rows : κ → Option ρ
  keys : List κ
  sorted : keys.Pairwise (· < ·)
  mem_keys : ∀ k, k ∈ keys ↔ (rows k).isSome

namespace Table

variable {κ ρ : Type*} [LinearOrder κ]

/-- A table of one row. -/
def single (k : κ) (r : ρ) : Table κ ρ where
  rows k' := if k' = k then some r else none
  keys := [k]
  sorted := List.pairwise_singleton _ _
  mem_keys k' := by by_cases h : k' = k <;> simp [h]

/-- `SELECT .. WHERE p ORDER BY key`. -/
def select (t : Table κ ρ) (p : κ → ρ → Prop) [∀ k r, Decidable (p k r)] : List (κ × ρ) :=
  t.keys.filterMap fun k => (t.rows k).bind fun r => if p k r then some (k, r) else none

/-- `UPDATE`: `f` answers the new row where the statement's condition matches. -/
def update (t : Table κ ρ) (f : κ → ρ → Option ρ) : Table κ ρ where
  rows k := (t.rows k).map fun r => (f k r).getD r
  keys := t.keys
  sorted := t.sorted
  mem_keys k := by simp [t.mem_keys]

/-- Only the rows that meet `p`. -/
def only (t : Table κ ρ) (p : κ → ρ → Prop) [∀ k r, Decidable (p k r)] : Table κ ρ where
  rows k := (t.rows k).filter fun r => p k r
  keys := t.keys.filter fun k => (t.rows k).any fun r => p k r
  sorted := t.sorted.sublist List.filter_sublist
  mem_keys k := by
    rw [List.mem_filter, t.mem_keys]
    cases t.rows k with
    | none => simp
    | some r => by_cases h : p k r <;> simp [h]

/-- `UPDATE .. WHERE key = k`, to a row computed elsewhere. -/
def put (t : Table κ ρ) (k : κ) (r : ρ) : Table κ ρ :=
  t.update fun k' _ => if k' = k then some r else none

/-- The keys of the rows an `UPDATE` matched. -/
def changed (t : Table κ ρ) (f : κ → ρ → Option ρ) : List κ :=
  t.keys.filter fun k => ((t.rows k).bind (f k)).isSome

theorem keys_nodup (t : Table κ ρ) : t.keys.Nodup :=
  t.sorted.imp fun h => ne_of_lt h

theorem mem_select {t : Table κ ρ} {p : κ → ρ → Prop} [∀ k r, Decidable (p k r)] {k : κ} {r : ρ} :
    (k, r) ∈ t.select p ↔ t.rows k = some r ∧ p k r := by
  unfold select
  rw [List.mem_filterMap]
  constructor
  · rintro ⟨k', -, h⟩
    obtain ⟨r', hr, h⟩ := Option.bind_eq_some_iff.mp h
    obtain ⟨hp, h⟩ := Option.ite_none_right_eq_some.mp h
    obtain ⟨rfl, rfl⟩ := Prod.mk.inj (Option.some.inj h)
    exact ⟨hr, hp⟩
  · rintro ⟨hr, hp⟩
    refine ⟨k, (t.mem_keys k).mpr (by simp [hr]), ?_⟩
    simp [hr, hp]

theorem select_fst_sublist (t : Table κ ρ) (p : κ → ρ → Prop) [∀ k r, Decidable (p k r)] :
    ((t.select p).map Prod.fst).Sublist t.keys := by
  unfold select
  induction t.keys with
  | nil => simp
  | cons k ks ih =>
    rw [List.filterMap_cons]
    cases h : (t.rows k).bind fun r => if p k r then some (k, r) else none with
    | none => exact ih.cons k
    | some x =>
      obtain ⟨r, -, hx⟩ := Option.bind_eq_some_iff.mp h
      obtain ⟨-, hx⟩ := Option.ite_none_right_eq_some.mp hx
      obtain rfl := Option.some.inj hx
      exact ih.cons_cons k

theorem select_fst_nodup (t : Table κ ρ) (p : κ → ρ → Prop) [∀ k r, Decidable (p k r)] :
    ((t.select p).map Prod.fst).Nodup :=
  t.keys_nodup.sublist (t.select_fst_sublist p)

theorem rows_only {t : Table κ ρ} {p : κ → ρ → Prop} [∀ k r, Decidable (p k r)] {k : κ} {r : ρ}
    (h : t.rows k = some r) : (t.only p).rows k = if p k r then some r else none := by
  unfold only
  by_cases hp : p k r <;> simp [h, hp]

@[simp] theorem rows_update (t : Table κ ρ) (f : κ → ρ → Option ρ) (k : κ) :
    (t.update f).rows k = (t.rows k).map fun r => (f k r).getD r :=
  rfl

theorem rows_put_self {t : Table κ ρ} {k : κ} {r : ρ} (r' : ρ) (h : t.rows k = some r) :
    (t.put k r').rows k = some r' := by
  simp [put, h]

theorem rows_put_of_ne {t : Table κ ρ} {k k' : κ} (r : ρ) (h : k' ≠ k) :
    (t.put k r).rows k' = t.rows k' := by
  cases hr : t.rows k' <;> simp [put, h, hr]

theorem mem_changed {t : Table κ ρ} {f : κ → ρ → Option ρ} {k : κ} :
    k ∈ t.changed f ↔ ∃ r r', t.rows k = some r ∧ f k r = some r' := by
  simp only [changed, List.mem_filter, t.mem_keys, Option.isSome_iff_exists,
    Option.bind_eq_some_iff]
  constructor
  · rintro ⟨-, r', r, hr, hf⟩
    exact ⟨r, r', hr, hf⟩
  · rintro ⟨r, r', hr, hf⟩
    exact ⟨⟨r, hr⟩, r', r, hr, hf⟩

theorem changed_nodup (t : Table κ ρ) (f : κ → ρ → Option ρ) : (t.changed f).Nodup :=
  t.keys_nodup.sublist List.filter_sublist

/-- An `UPDATE` that only touches rows of a list of distinct keys, and touches as many rows as the
list has, touched exactly these. -/
theorem changed_perm {t : Table κ ρ} {f : κ → ρ → Option ρ} {ids : List κ}
    (hsub : ∀ k r r', t.rows k = some r → f k r = some r' → k ∈ ids)
    (hlen : (t.changed f).length = ids.length) : (t.changed f).Perm ids := by
  have hsubset : t.changed f ⊆ ids := by
    intro k hk
    obtain ⟨r, r', hr, hf⟩ := mem_changed.mp hk
    exact hsub k r r' hr hf
  exact ((t.changed_nodup f).subperm hsubset).perm_of_length_le hlen.symm.le

end Table

end Machine
