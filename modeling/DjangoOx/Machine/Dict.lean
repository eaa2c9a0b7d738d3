import Mathlib.Data.List.Nodup
import Mathlib.Data.List.Basic

/-! Dictionaries that keep their keys in the order they were first set in. -/
namespace Machine

/-- The entries, oldest key first. -/
structure Dict (κ β : Type*) where
  items : List (κ × β)
  nodup : (items.map Prod.fst).Nodup

namespace Dict

variable {κ β : Type*}

def empty : Dict κ β := ⟨[], List.nodup_nil⟩

variable [DecidableEq κ]

def get? (d : Dict κ β) (k : κ) : Option β :=
  (d.items.find? fun e => e.1 = k).map Prod.snd

private theorem keys_map_replace (l : List (κ × β)) (k : κ) (v : β) :
    (l.map fun e => if e.1 = k then (k, v) else e).map Prod.fst = l.map Prod.fst := by
  rw [List.map_map]
  apply List.map_congr_left
  intro e _
  by_cases h : e.1 = k <;> simp [h]

/-- `d[k] = v`: a key that is there keeps its place. -/
def set (d : Dict κ β) (k : κ) (v : β) : Dict κ β :=
  if h : k ∈ d.items.map Prod.fst then
    ⟨d.items.map fun e => if e.1 = k then (k, v) else e, by
      rw [keys_map_replace]; exact d.nodup⟩
  else
    ⟨d.items ++ [(k, v)], by
      rw [List.map_append, List.map_singleton]
      exact List.nodup_append.mpr ⟨d.nodup, List.nodup_singleton _, by
        intro a ha b hb hab
        rw [List.mem_singleton] at hb
        rw [hab, hb] at ha
        exact h ha⟩⟩

/-- `d.pop(k, None)`. -/
def erase (d : Dict κ β) (k : κ) : Dict κ β :=
  ⟨d.items.filter fun e => e.1 ≠ k, d.nodup.sublist (List.filter_sublist.map _)⟩

/-- `d.setdefault(k, v)` -/
def setDefault (d : Dict κ β) (k : κ) (v : β) : Dict κ β :=
  if d.get? k = none then d.set k v else d

theorem get?_eq_some {d : Dict κ β} {k : κ} {v : β} : d.get? k = some v ↔ (k, v) ∈ d.items := by
  unfold get?
  constructor
  · intro h
    obtain ⟨e, he, rfl⟩ := Option.map_eq_some_iff.mp h
    have hk : e.1 = k := by simpa using List.find?_some he
    have hmem := List.mem_of_find?_eq_some he
    rwa [← hk]
  · intro h
    cases hf : d.items.find? fun e => e.1 = k with
    | none =>
      have := List.find?_eq_none.mp hf _ h
      simp at this
    | some e =>
      have hk : e.1 = k := by simpa using List.find?_some hf
      have hmem := List.mem_of_find?_eq_some hf
      have heq : e = (k, v) := List.inj_on_of_nodup_map d.nodup hmem h hk
      rw [heq]
      rfl

theorem get?_eq_none {d : Dict κ β} {k : κ} : d.get? k = none ↔ k ∉ d.items.map Prod.fst := by
  rw [Option.eq_none_iff_forall_ne_some, List.mem_map]
  constructor
  · rintro h ⟨e, he, rfl⟩
    exact h e.2 (get?_eq_some.mpr he)
  · intro h v hv
    exact h ⟨(k, v), get?_eq_some.mp hv, rfl⟩

/-- Two dictionaries with the same entries under `k`. -/
private theorem get?_congr {d e : Dict κ β} {k : κ}
    (h : ∀ v, (k, v) ∈ d.items ↔ (k, v) ∈ e.items) : d.get? k = e.get? k := by
  apply Option.ext
  intro v
  rw [get?_eq_some, get?_eq_some]
  exact h v

@[simp] theorem get?_empty (k : κ) : (empty : Dict κ β).get? k = none :=
  rfl

theorem get?_set (d : Dict κ β) (j k : κ) (v : β) :
    (d.set k v).get? j = if j = k then some v else d.get? j := by
  unfold set
  split_ifs with hk hj hj
  · rw [get?_eq_some, List.mem_map]
    obtain ⟨e, he, hek⟩ := List.mem_map.mp hk
    exact ⟨e, he, by simp [hj, hek]⟩
  · apply get?_congr
    intro w
    simp only [List.mem_map]
    constructor
    · rintro ⟨e, he, hw⟩
      split_ifs at hw with hek
      · exact absurd (Prod.mk.inj hw).1.symm hj
      · rwa [hw] at he
    · intro hw
      exact ⟨_, hw, by simp [hj]⟩
  · rw [get?_eq_some]
    simp [hj]
  · apply get?_congr
    intro w
    simp [hj]

@[simp] theorem get?_erase (d : Dict κ β) (j k : κ) :
    (d.erase k).get? j = if j = k then none else d.get? j := by
  split_ifs with hj
  · rw [get?_eq_none]
    simp [erase, hj]
  · apply get?_congr
    intro w
    simp [erase, hj]

theorem get?_setDefault (d : Dict κ β) (j k : κ) (v : β) :
    (d.setDefault k v).get? j = (d.get? j).or (if j = k then some v else none) := by
  unfold setDefault
  by_cases hk : d.get? k = none
  · rw [if_pos hk, get?_set]
    by_cases hj : j = k
    · rw [if_pos hj, if_pos hj, hj, hk, Option.none_or]
    · rw [if_neg hj, if_neg hj, Option.or_none]
  · rw [if_neg hk]
    by_cases hj : j = k
    · rw [hj]
      cases hget : d.get? k with
      | none => exact absurd hget hk
      | some w => rfl
    · rw [if_neg hj, Option.or_none]

/-- The first value given under a key is the one that stays. -/
theorem get?_foldl_setDefault (l : List (κ × β)) (d : Dict κ β) (k : κ) :
    (l.foldl (fun d p => d.setDefault p.1 p.2) d).get? k = (d.get? k).or (l.lookup k) := by
  induction l generalizing d with
  | nil => rw [List.foldl_nil, List.lookup_nil, Option.or_none]
  | cons p l ih =>
    rw [List.foldl_cons, ih, get?_setDefault, Option.or_assoc, List.lookup_cons]
    by_cases hk : k = p.1
    · rw [if_pos hk, hk, beq_self_eq_true]
      rfl
    · rw [if_neg hk, Option.none_or, beq_eq_false_iff_ne.mpr hk]

theorem items_eq_nil {d : Dict κ β} : d.items = [] ↔ ∀ k, d.get? k = none := by
  constructor
  · intro h k
    simp [get?, h]
  · intro h
    cases hd : d.items with
    | nil => rfl
    | cons e l =>
      have he : d.get? e.1 = some e.2 := get?_eq_some.mpr (by simp [hd])
      rw [h] at he
      cases he

end Dict

/-! `dict.fromkeys`: each key once, in the order of its first place. -/

section fromkeys

variable {α : Type*} [DecidableEq α]

theorem nodup_eraseDups (l : List α) : l.eraseDups.Nodup := by
  induction hn : l.length using Nat.strongRecOn generalizing l with
  | ind n ih =>
    cases l with
    | nil => simp
    | cons a l =>
      rw [List.eraseDups_cons, List.nodup_cons]
      constructor
      · rw [List.mem_eraseDups]
        simp
      · refine ih _ ?_ _ rfl
        have := List.length_filter_le (fun b => !b == a) l
        rw [← hn, List.length_cons]
        omega

theorem eraseDups_of_nodup {l : List α} (h : l.Nodup) : l.eraseDups = l := by
  induction l with
  | nil => simp
  | cons a l ih =>
    obtain ⟨ha, h⟩ := List.nodup_cons.mp h
    have hfilter : l.filter (fun b => !b == a) = l := by
      rw [List.filter_eq_self]
      intro b hb
      have hne : b ≠ a := fun hba => ha (hba ▸ hb)
      simp [hne]
    rw [List.eraseDups_cons, hfilter, ih h]

end fromkeys

end Machine
