import Mathlib.Data.Set.Card

/-! How many parties are in a set, when one party moves. -/
namespace Machine.Members

variable {ι : Type*} [Finite ι] {s t : Set ι} {w : ι}

theorem ncard_le_of_imp (h : ∀ v, v ∈ s → v ∈ t) : s.ncard ≤ t.ncard :=
  Set.ncard_le_ncard h

/-- A party leaves, and no other comes in. -/
theorem ncard_leave (h : ∀ v, v ≠ w → v ∈ s → v ∈ t) (hw : w ∈ t) (hn : w ∉ s) :
    s.ncard < t.ncard := by
  refine Set.ncard_lt_ncard ⟨fun v hv => h v ?_ hv, fun hsub => hn (hsub hw)⟩
  rintro rfl
  exact hn hv

/-- No party comes in but one. -/
theorem ncard_join (h : ∀ v, v ≠ w → v ∈ s → v ∈ t) : s.ncard ≤ t.ncard + 1 := by
  have hsub : s ⊆ insert w t := by
    intro v hv
    by_cases hvw : v = w
    · exact .inl hvw
    · exact .inr (h v hvw hv)
  exact (Set.ncard_le_ncard hsub).trans (Set.ncard_insert_le w t)

theorem ncard_le_card (s : Set ι) : s.ncard ≤ Nat.card ι := by
  rw [← Set.ncard_univ]
  exact Set.ncard_le_ncard (Set.subset_univ s)

/-- Nobody is in both. -/
theorem ncard_add_ncard_le (h : ∀ v, v ∈ s → v ∉ t) : s.ncard + t.ncard ≤ Nat.card ι := by
  rw [← Set.ncard_union_eq (Set.disjoint_left.mpr h)]
  exact ncard_le_card _

end Machine.Members
