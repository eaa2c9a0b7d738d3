import Mathlib.Data.Int.Order.Basic

/-! Integers of a bounded range, and arithmetic that answers `none` outside it. -/
namespace Machine

/-- The integers from `lo` to `hi`. -/
structure Bounded (lo hi : ℤ) where
  val : ℤ
  lo_le : lo ≤ val
  le_hi : val ≤ hi
  deriving DecidableEq, Repr

namespace Bounded

variable {lo hi x : ℤ} {b c : Bounded lo hi}

/-- The value in the range, or an overflow. -/
def check (lo hi x : ℤ) : Option (Bounded lo hi) :=
  if h : lo ≤ x ∧ x ≤ hi then some ⟨x, h.1, h.2⟩ else none

theorem check_eq_some : check lo hi x = some b ↔ b.val = x := by
  unfold check
  constructor
  · intro h
    split_ifs at h
    cases h
    rfl
  · rintro rfl
    rw [dif_pos ⟨b.lo_le, b.le_hi⟩]

end Bounded

end Machine
