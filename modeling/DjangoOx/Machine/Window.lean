import Mathlib.Data.List.Basic
import Mathlib.Data.List.Induction
import Mathlib.Data.Int.Order.Basic
import Mathlib.Algebra.Order.Ring.Int

/-! Sliding windows over times that never go back: a queue that drops what is too old when a
new time comes in, and how many times fall close together. -/
namespace Machine.Window

/-- The new time goes in at the back, and those further back than `w` from it go out in front. -/
def slide (w : ℤ) (q : List ℤ) (now : ℤ) : List ℤ :=
  (q ++ [now]).dropWhile fun t => decide (w < now - t)

/-- The queue after these times came in, one by one. -/
def queue (w : ℤ) (ts : List ℤ) : List ℤ :=
  ts.foldl (slide w) []

/-- More than `cap` of the times lie in one stretch of length `w`. -/
def Crowded (w : ℤ) (cap : ℕ) (ts : List ℤ) : Prop :=
  ∃ x, cap < (ts.filter fun t => decide (x - w ≤ t ∧ t ≤ x)).length

theorem queue_concat (w : ℤ) (ts : List ℤ) (now : ℤ) :
    queue w (ts ++ [now]) = slide w (queue w ts) now := by
  simp [queue]

theorem dropWhile_eq_filter {w now : ℤ} {ts : List ℤ} (h : ts.Pairwise (· ≤ ·)) :
    ts.dropWhile (fun t => decide (w < now - t)) = ts.filter fun t => decide (now - t ≤ w) := by
  induction ts with
  | nil => rfl
  | cons t ts ih =>
    obtain ⟨ht, hts⟩ := List.pairwise_cons.mp h
    by_cases hw : w < now - t
    · have hout : ¬ now - t ≤ w := not_le.mpr hw
      rw [List.dropWhile_cons, if_pos (decide_eq_true hw),
        List.filter_cons_of_neg (by rwa [decide_eq_true_eq]), ih hts]
    · rw [List.dropWhile_cons, if_neg (by rwa [decide_eq_true_eq])]
      symm
      apply List.filter_eq_self.mpr
      intro u hu
      have hle : t ≤ u := by
        rcases List.mem_cons.mp hu with rfl | hu
        · exact le_rfl
        · exact ht u hu
      simp only [decide_eq_true_eq]
      omega

theorem pairwise_concat {ts : List ℤ} {now : ℤ} (h : ts.Pairwise (· ≤ ·)) (hn : ∀ t ∈ ts, t ≤ now) :
    (ts ++ [now]).Pairwise (· ≤ ·) := by
  apply List.pairwise_append.mpr
  refine ⟨h, List.pairwise_singleton _ _, ?_⟩
  intro t ht u hu
  rw [List.mem_singleton] at hu
  exact hu ▸ hn t ht

/-- What the queue holds: the times no further back than `w` from the last. -/
theorem queue_eq_filter {w : ℤ} {ts : List ℤ} {now : ℤ} (h : (ts ++ [now]).Pairwise (· ≤ ·)) :
    queue w (ts ++ [now]) = (ts ++ [now]).filter fun t => decide (now - t ≤ w) := by
  induction ts using List.reverseRec generalizing now with
  | nil => exact dropWhile_eq_filter h
  | append_singleton ts last ih =>
    obtain ⟨hts, -, hnow⟩ := List.pairwise_append.mp h
    have hlast : last ≤ now := hnow last (by simp) now (by simp)
    have hqueue := ih hts
    have hsorted : (queue w (ts ++ [last]) ++ [now]).Pairwise (· ≤ ·) := by
      apply pairwise_concat
      · rw [hqueue]
        exact hts.sublist List.filter_sublist
      · rw [hqueue]
        intro t ht
        exact hnow t (List.mem_of_mem_filter ht) now (by simp)
    rw [queue_concat, slide, dropWhile_eq_filter hsorted, hqueue, List.filter_append,
      List.filter_append (ts ++ [last]) [now], List.filter_filter]
    congr 1
    apply List.filter_congr
    intro t _
    simp only [← Bool.decide_and, decide_eq_decide]
    omega

/-- The stretch that a new time can fill up ends at that time. -/
theorem crowded_concat (w : ℤ) (cap : ℕ) {ts : List ℤ} {now : ℤ}
    (h : (ts ++ [now]).Pairwise (· ≤ ·)) :
    Crowded w cap (ts ++ [now]) ↔ Crowded w cap ts ∨ cap < (queue w (ts ++ [now])).length := by
  have hle : ∀ t ∈ ts ++ [now], t ≤ now := by
    intro t ht
    rcases List.mem_append.mp ht with ht | ht
    · exact (List.pairwise_append.mp h).2.2 t ht now (by simp)
    · exact (List.mem_singleton.mp ht).le
  rw [queue_eq_filter h]
  constructor
  · rintro ⟨x, hx⟩
    by_cases hxn : x < now
    · left
      refine ⟨x, ?_⟩
      have hout : decide (x - w ≤ now ∧ now ≤ x) = false := by
        simp only [decide_eq_false_iff_not]
        omega
      rw [List.filter_append, List.filter_singleton, hout] at hx
      simpa only [cond_false, List.append_nil] using hx
    · right
      apply hx.trans_le
      apply List.Sublist.length_le
      apply List.monotone_filter_right
      intro t ht
      simp only [decide_eq_true_eq] at ht ⊢
      omega
  · rintro (⟨x, hx⟩ | hq)
    · refine ⟨x, hx.trans_le ?_⟩
      rw [List.filter_append]
      simp
    · refine ⟨now, hq.trans_le (le_of_eq ?_)⟩
      congr 1
      apply List.filter_congr
      intro t ht
      have := hle t ht
      simp only [decide_eq_decide]
      omega

theorem not_crowded_nil (w : ℤ) (cap : ℕ) : ¬ Crowded w cap [] := by
  rintro ⟨x, hx⟩
  simp at hx

end Machine.Window
