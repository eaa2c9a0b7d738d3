import Mathlib.Data.List.Dedup
import Mathlib.Data.List.Perm.Basic
import Mathlib.Data.List.Nodup

/-! Operations that commute and that nothing is gained by repeating: a run of them depends on which
were made and on nothing else. -/
namespace Machine

variable {σ α : Type*} {f : σ → α → σ}

/-- An operation that comes again later may be left out. -/
theorem foldl_of_mem {x : α} {l : List α} (hcomm : ∀ y ∈ l, ∀ s, f (f s x) y = f (f s y) x)
    (hidem : ∀ s, f (f s x) x = f s x) (hx : x ∈ l) (s : σ) :
    l.foldl f (f s x) = l.foldl f s := by
  induction l generalizing s with
  | nil => exact absurd hx List.not_mem_nil
  | cons y l ih =>
    simp only [List.foldl_cons]
    rw [hcomm y List.mem_cons_self]
    rcases List.mem_cons.mp hx with rfl | hx
    · rw [hidem]
    · exact ih (fun y hy => hcomm y (List.mem_cons_of_mem _ hy)) hx _

variable [DecidableEq α]

theorem foldl_dedup {l : List α} (hcomm : ∀ x ∈ l, ∀ y ∈ l, ∀ s, f (f s x) y = f (f s y) x)
    (hidem : ∀ x ∈ l, ∀ s, f (f s x) x = f s x) (s : σ) :
    l.dedup.foldl f s = l.foldl f s := by
  induction l generalizing s with
  | nil => rfl
  | cons x l ih =>
    have htail := ih (fun x hx y hy => hcomm x (List.mem_cons_of_mem _ hx) y
      (List.mem_cons_of_mem _ hy)) fun x hx => hidem x (List.mem_cons_of_mem _ hx)
    by_cases hx : x ∈ l
    · rw [List.dedup_cons_of_mem hx, htail, List.foldl_cons]
      exact (foldl_of_mem (fun y hy => hcomm x List.mem_cons_self y (List.mem_cons_of_mem _ hy))
        (hidem x List.mem_cons_self) hx s).symm
    · rw [List.dedup_cons_of_notMem hx]
      exact htail _

/-- The order of the operations and how often each is made do not matter. -/
theorem foldl_eq_of_mem_iff {l l' : List α}
    (hcomm : ∀ x ∈ l, ∀ y ∈ l, ∀ s, f (f s x) y = f (f s y) x)
    (hidem : ∀ x ∈ l, ∀ s, f (f s x) x = f s x) (h : ∀ x, x ∈ l ↔ x ∈ l') (s : σ) :
    l.foldl f s = l'.foldl f s := by
  have hperm : l.dedup.Perm l'.dedup := by
    rw [List.perm_ext_iff_of_nodup (List.nodup_dedup l) (List.nodup_dedup l')]
    intro x
    rw [List.mem_dedup, List.mem_dedup, h]
  have hcomm' : ∀ x ∈ l', ∀ y ∈ l', ∀ s, f (f s x) y = f (f s y) x :=
    fun x hx y hy => hcomm x ((h x).mpr hx) y ((h y).mpr hy)
  rw [← foldl_dedup hcomm hidem, ← foldl_dedup hcomm' fun x hx => hidem x ((h x).mpr hx)]
  exact hperm.foldl_eq' (fun x hx y hy => hcomm x (List.mem_dedup.mp hx) y (List.mem_dedup.mp hy)) s

end Machine
