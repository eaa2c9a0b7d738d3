import Mathlib.Data.List.GetD
import Mathlib.Data.Nat.Basic
import Mathlib.Order.Basic
import Mathlib.Tactic.Set
import Mathlib.Tactic.SplitIfs

/-! A table of answers filled a stretch at a time: the entries near something are each worked out,
and those between take the answer of the first. -/
namespace Stretches

/-- `near.find(1, start)` -/
def find (near : List Bool) (start : ℕ) : Option ℕ :=
  ((near.drop start).findIdx? fun b => b).map (· + start)

/-- `late[start:stop] = late[start : start + 1] * (stop - start)` -/
def copy (late : List Bool) (start stop : ℕ) : List Bool :=
  late.take start ++ List.replicate (stop - start) (late.getD start false) ++ late.drop stop

/-- The loop over the table, from an index on. -/
def fillFrom (near : List Bool) (answer : ℕ → Bool) : ℕ → ℕ → List Bool → List Bool
  | 0, _, late => late
  | fuel + 1, index, late =>
    if index < near.length then
      let late := late.set index (answer index)
      if near.getD index false then fillFrom near answer fuel (index + 1) late
      else
        let stretch := (find near (index + 1)).getD near.length
        fillFrom near answer fuel stretch (copy late index stretch)
    else late

/-- An index takes a step of the loop at most. -/
def fill (near : List Bool) (answer : ℕ → Bool) : List Bool :=
  fillFrom near answer near.length 0 (List.replicate near.length false)

variable {near late : List Bool} {answer : ℕ → Bool} {index fuel i j : ℕ}

/-- Where a stretch ends: at the table's end, or at an entry that is near. -/
theorem find_spec (h : index < near.length) :
    let stretch := (find near (index + 1)).getD near.length
    index < stretch ∧ stretch ≤ near.length ∧
      ∀ i, index < i → i < stretch → near.getD i false = false := by
  unfold find
  cases hf : (near.drop (index + 1)).findIdx? fun b => b with
  | none =>
    refine ⟨h, le_rfl, fun i hi hlt => ?_⟩
    have hnone := List.findIdx?_eq_none_iff.mp hf
    have hlt' : i < near.length := hlt
    rw [List.getD_eq_getElem _ _ hlt']
    have hmem : near[i] ∈ near.drop (index + 1) := by
      rw [List.mem_drop_iff_getElem]
      exact ⟨i - (index + 1), by omega, by congr 1; omega⟩
    exact hnone _ hmem
  | some k =>
    obtain ⟨hk, -, hbefore⟩ := List.findIdx?_eq_some_iff_getElem.mp hf
    rw [List.length_drop] at hk
    refine ⟨?_, ?_, fun i hi hlt => ?_⟩
    · change index < k + (index + 1)
      omega
    · change k + (index + 1) ≤ near.length
      omega
    · have hlt' : i < k + (index + 1) := hlt
      have hb := hbefore (i - (index + 1)) (by omega)
      rw [List.getElem_drop] at hb
      rw [List.getD_eq_getElem _ _ (by omega)]
      simpa [show index + 1 + (i - (index + 1)) = i by omega] using hb

theorem length_copy (hi : i ≤ j) (hj : j ≤ late.length) : (copy late i j).length = late.length := by
  unfold copy
  simp only [List.length_append, List.length_take, List.length_replicate, List.length_drop]
  omega

theorem getElem?_copy {k : ℕ} (hi : i < j) (hj : j ≤ late.length) :
    (copy late i j)[k]? = if i ≤ k ∧ k < j then late[i]? else late[k]? := by
  have htake : (late.take i).length = i := by
    rw [List.length_take]
    omega
  have hget : late[i]? = some (late.getD i false) := by
    rw [List.getD_eq_getElem _ _ (by omega), List.getElem?_eq_getElem]
  unfold copy
  split_ifs with h
  · rw [hget, List.append_assoc, List.getElem?_append_right (by omega), htake,
      List.getElem?_append_left (by rw [List.length_replicate]; omega), List.getElem?_replicate,
      if_pos (by omega)]
  · by_cases hk : k < i
    · rw [List.append_assoc, List.getElem?_append_left (by omega), List.getElem?_take_of_lt hk]
    · rw [List.getElem?_append_right (by
        rw [List.length_append, List.length_replicate]
        omega), List.getElem?_drop, List.length_append, List.length_replicate, htake]
      congr 1
      omega

/-- The answers of a stretch with nothing near are those of its first entry. -/
theorem answer_stretch (hsame : ∀ i, i + 1 < near.length → near.getD i false = false →
      near.getD (i + 1) false = false → answer (i + 1) = answer i) {stop : ℕ}
    (hstop : stop ≤ near.length) (hi : near.getD index false = false)
    (h : ∀ i, index < i → i < stop → near.getD i false = false) (hij : index ≤ j) (hj : j < stop) :
    answer j = answer index := by
  induction j, hij using Nat.le_induction with
  | base => rfl
  | succ j hij ih =>
    have hnear : near.getD j false = false := by
      rcases hij.eq_or_lt with rfl | hlt
      · exact hi
      · exact h j hlt (by omega)
    rw [hsame j (by omega) hnear (h (j + 1) (by omega) hj), ih (by omega)]

/-- The loop fills what it has passed with its answers. -/
theorem fillFrom_spec (hsame : ∀ i, i + 1 < near.length → near.getD i false = false →
      near.getD (i + 1) false = false → answer (i + 1) = answer i)
    (hlen : late.length = near.length) (hfuel : near.length ≤ fuel + index)
    (hdone : ∀ i < index, i < near.length → late[i]? = some (answer i)) :
    (fillFrom near answer fuel index late).length = near.length ∧
      ∀ i < near.length, (fillFrom near answer fuel index late)[i]? = some (answer i) := by
  induction fuel generalizing index late with
  | zero => exact ⟨hlen, fun i hi => hdone i (by omega) hi⟩
  | succ fuel ih =>
    unfold fillFrom
    by_cases hlt : index < near.length
    · rw [if_pos hlt]
      dsimp only
      have hset : (late.set index (answer index)).length = near.length := by
        rw [List.length_set, hlen]
      have hdone' : ∀ i < index + 1, i < near.length →
          (late.set index (answer index))[i]? = some (answer i) := by
        intro i hi hn
        rw [List.getElem?_set]
        split_ifs with heq hle
        · rw [heq]
        · omega
        · exact hdone i (by omega) hn
      by_cases hnear : near.getD index false = true
      · rw [if_pos hnear]
        exact ih hset (by omega) hdone'
      · rw [if_neg hnear]
        obtain ⟨hlow, hhigh, hall⟩ := find_spec hlt
        set stretch := (find near (index + 1)).getD near.length
        have hfalse : near.getD index false = false := by simpa using hnear
        refine ih ?_ (by omega) fun i hi hn => ?_
        · rw [length_copy hlow.le (by omega), hset]
        · rw [getElem?_copy hlow (by omega)]
          split_ifs with hin
          · rw [answer_stretch hsame hhigh hfalse hall hin.1 hin.2]
            exact hdone' index (by omega) hlt
          · exact hdone' i (by omega) hn
    · rw [if_neg hlt]
      exact ⟨hlen, fun i hi => hdone i (by omega) hi⟩

/-- Where neighbours that are near nothing have one answer, every entry has its own. -/
theorem fill_eq (hsame : ∀ i, i + 1 < near.length → near.getD i false = false →
      near.getD (i + 1) false = false → answer (i + 1) = answer i) :
    fill near answer = (List.range near.length).map answer := by
  have hlen : (List.replicate near.length false).length = near.length := List.length_replicate
  obtain ⟨hlen', hget⟩ := fillFrom_spec hsame hlen (le_refl (near.length + 0)) (by simp)
  apply List.ext_getElem?
  intro i
  by_cases hi : i < near.length
  · rw [List.getElem?_map, List.getElem?_range hi]
    exact hget i hi
  · rw [List.getElem?_eq_none (by rw [fill, hlen']; omega), List.getElem?_eq_none (by simp; omega)]

end Stretches
