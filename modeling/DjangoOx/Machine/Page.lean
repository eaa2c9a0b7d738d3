import Mathlib.Data.List.Sort
import Mathlib.Data.Nat.Basic

/-! Paging a table by key: the rows past a place, in the order of their keys, a batch at a time. -/
namespace Machine

variable {α κ : Type*} [LinearOrder κ] {key : α → κ} {rows : List α} {after : Option κ} {n : ℕ}
  {x y : α}

namespace Keys

/-- Keys that are in order compare lawfully, found as one step. -/
scoped instance lawful : LawfulBEq κ := inferInstance

end Keys

/-- The first `n` rows whose key is past `after`, in the order of their keys. -/
def page (key : α → κ) (rows : List α) (after : Option κ) (n : ℕ) : List α :=
  ((rows.filter fun r => ∀ k ∈ after, k < key r).insertionSort fun a b => key a ≤ key b).take n

theorem mem_of_mem_page (h : x ∈ page key rows after n) : x ∈ rows ∧ ∀ k ∈ after, k < key x := by
  have hs := List.mem_of_mem_take h
  rw [List.mem_insertionSort] at hs
  simpa using List.mem_filter.mp hs

theorem pairwise_sorted (key : α → κ) (l : List α) :
    (l.insertionSort fun a b => key a ≤ key b).Pairwise fun a b => key a ≤ key b := by
  have htotal : Std.Total fun a b : α => key a ≤ key b := ⟨fun a b => le_total _ _⟩
  have htrans : IsTrans α fun a b => key a ≤ key b := ⟨fun _ _ _ => le_trans⟩
  exact List.pairwise_insertionSort _ l

theorem pairwise_page : (page key rows after n).Pairwise fun a b => key a ≤ key b := by
  unfold page
  exact (pairwise_sorted key _).sublist (List.take_sublist _ _)

/-- A row past the place is on the page, or the page is full and sorts before the row. -/
theorem mem_page_or (hx : x ∈ rows) (ha : ∀ k ∈ after, k < key x) :
    x ∈ page key rows after n ∨
      (page key rows after n).length = n ∧ ∀ y ∈ page key rows after n, key y ≤ key x := by
  set l := (rows.filter fun r => ∀ k ∈ after, k < key r).insertionSort fun a b => key a ≤ key b
    with hl
  have hmem : x ∈ l := by
    rw [hl, List.mem_insertionSort]
    exact List.mem_filter.mpr ⟨hx, by simpa using ha⟩
  have hsplit : x ∈ l.take n ++ l.drop n := by rwa [List.take_append_drop]
  rcases List.mem_append.mp hsplit with htake | hdrop
  · exact .inl htake
  · right
    constructor
    · have hpos : 0 < (l.drop n).length := List.length_pos_of_mem hdrop
      rw [List.length_drop] at hpos
      change (l.take n).length = n
      rw [List.length_take]
      omega
    · intro y hy
      have hsorted : (l.take n ++ l.drop n).Pairwise fun a b => key a ≤ key b := by
        rw [List.take_append_drop]
        exact pairwise_sorted key _
      exact (List.pairwise_append.mp hsorted).2.2 y hy x hdrop

theorem nodup_page (hn : rows.Nodup) : (page key rows after n).Nodup := by
  unfold page
  refine (List.take_sublist _ _).nodup ?_
  exact (List.perm_insertionSort _ _).nodup_iff.mpr (hn.filter _)

/-- The last key of a page is the greatest on it. -/
theorem le_getLast_page (hx : x ∈ page key rows after n)
    (hy : (page key rows after n).getLast? = some y) : key x ≤ key y := by
  obtain ⟨l, hl⟩ := List.getLast?_eq_some_iff.mp hy
  rw [hl] at hx
  have hsorted : (l ++ [y]).Pairwise fun a b => key a ≤ key b := hl ▸ pairwise_page
  rcases List.mem_append.mp hx with hinit | hlast
  · exact (List.pairwise_append.mp hsorted).2.2 x hinit y (List.mem_singleton.mpr rfl)
  · rw [List.mem_singleton.mp hlast]

section Index

variable {β : Type*} [DecidableEq β] {id : α → β} {l l' : List α}

private theorem getElem_idxOf_map (hn : (l.map id).Nodup) (hx : x ∈ l) :
    ∃ h : (l.map id).idxOf (id x) < l.length, l[(l.map id).idxOf (id x)] = x := by
  have hmem : id x ∈ l.map id := List.mem_map_of_mem hx
  have hlt : (l.map id).idxOf (id x) < (l.map id).length := List.idxOf_lt_length_of_mem hmem
  have hlen : (l.map id).idxOf (id x) < l.length := by simpa using hlt
  refine ⟨hlen, ?_⟩
  apply List.inj_on_of_nodup_map hn (List.getElem_mem hlen) hx
  have hget := List.getElem_idxOf hlt
  rwa [List.getElem_map] at hget

/-- In a sorted list the positions of two rows go with their keys. -/
theorem key_le_of_idxOf_lt (hs : l.Pairwise fun a b => key a ≤ key b) (hn : (l.map id).Nodup)
    (hx : x ∈ l) (hy : y ∈ l) (h : (l.map id).idxOf (id x) < (l.map id).idxOf (id y)) :
    key x ≤ key y := by
  obtain ⟨hi, hxi⟩ := getElem_idxOf_map hn hx
  obtain ⟨hj, hyj⟩ := getElem_idxOf_map hn hy
  have hle := List.pairwise_iff_getElem.mp hs _ _ hi hj h
  rwa [hxi, hyj] at hle

theorem idxOf_lt_of_key_lt (hs : l.Pairwise fun a b => key a ≤ key b) (hn : (l.map id).Nodup)
    (hx : x ∈ l) (hy : y ∈ l) (h : key x < key y) :
    (l.map id).idxOf (id x) < (l.map id).idxOf (id y) := by
  by_contra hnot
  rcases Nat.lt_or_eq_of_le (Nat.le_of_not_lt hnot) with hlt | heq
  · exact absurd (key_le_of_idxOf_lt hs hn hy hx hlt) (not_le_of_gt h)
  · have hid : id y = id x := by
      have hmem : id y ∈ l.map id := List.mem_map_of_mem hy
      exact (List.idxOf_inj hmem).mp heq
    rw [List.inj_on_of_nodup_map hn hy hx hid] at h
    exact lt_irrefl _ h

/-- Sorting rows with distinct keys has one result. -/
theorem sorted_unique (key : α → κ) (hp : l.Perm l') (hs : l.Pairwise fun a b => key a ≤ key b)
    (hs' : l'.Pairwise fun a b => key a ≤ key b)
    (hinj : ∀ a ∈ l, ∀ b ∈ l, key a = key b → a = b) : l = l' :=
  hp.eq_of_pairwise (fun a b ha hb hab hba =>
    hinj a ha b (hp.mem_iff.mpr hb) (le_antisymm hab hba)) hs hs'

/-- Sorting a selection is selecting from the sorted rows. -/
theorem insertionSort_filter (key : α → κ) (p : α → Bool)
    (hinj : ∀ a ∈ l, ∀ b ∈ l, key a = key b → a = b) :
    (l.filter p).insertionSort (fun a b => key a ≤ key b) =
      (l.insertionSort fun a b => key a ≤ key b).filter p := by
  have hperm := List.perm_insertionSort (fun a b : α => key a ≤ key b) (l.filter p)
  apply sorted_unique key
  · exact hperm.trans ((List.perm_insertionSort _ l).symm.filter p)
  · exact pairwise_sorted key _
  · exact (pairwise_sorted key l).sublist List.filter_sublist
  · intro a ha b hb
    exact hinj a (List.mem_of_mem_filter (hperm.mem_iff.mp ha)) b
      (List.mem_of_mem_filter (hperm.mem_iff.mp hb))

end Index

/-- The rows past a place, in the order of their keys. -/
def pastPlace (key : α → κ) (rows : List α) (after : Option κ) : List α :=
  (rows.filter fun r => ∀ k ∈ after, k < key r).insertionSort fun a b => key a ≤ key b

theorem mem_pastPlace : x ∈ pastPlace key rows after ↔ x ∈ rows ∧ ∀ k ∈ after, k < key x := by
  unfold pastPlace
  rw [List.mem_insertionSort]
  simp

/-- What a page leaves is what is past its last row. -/
theorem page_append (hn : (rows.map key).Nodup)
    (hlast : (page key rows after n).getLast? = some y) :
    page key rows after n ++ pastPlace key rows (some (key y)) = pastPlace key rows after := by
  have hinj : ∀ a ∈ rows, ∀ b ∈ rows, key a = key b → a = b := fun a ha b hb =>
    List.inj_on_of_nodup_map hn ha hb
  have hy : y ∈ page key rows after n := List.mem_of_getLast? hlast
  have hnodup : rows.Nodup := hn.of_map
  apply sorted_unique key
  · refine (List.perm_ext_iff_of_nodup ?_ ?_).mpr fun x => ?_
    · refine List.nodup_append'.mpr ⟨nodup_page hnodup, ?_, ?_⟩
      · exact (List.perm_insertionSort _ _).nodup_iff.mpr (hnodup.filter _)
      · intro x hx hx'
        have hle := le_getLast_page hx hlast
        exact absurd ((mem_pastPlace.mp hx').2 _ rfl) (not_lt_of_ge hle)
    · exact (List.perm_insertionSort _ _).nodup_iff.mpr (hnodup.filter _)
    · rw [List.mem_append, mem_pastPlace, mem_pastPlace]
      constructor
      · rintro (hx | ⟨hx, hlt⟩)
        · exact mem_of_mem_page hx
        · exact ⟨hx, fun k hk => ((mem_of_mem_page hy).2 k hk).trans (hlt _ rfl)⟩
      · rintro ⟨hx, ha⟩
        rcases mem_page_or (n := n) hx ha with hpage | ⟨-, hle⟩
        · exact .inl hpage
        · by_cases heq : key y = key x
          · left
            exact hinj y (mem_of_mem_page hy).1 x hx heq ▸ hy
          · right
            refine ⟨hx, fun k hk => ?_⟩
            obtain rfl := Option.some.inj hk
            exact lt_of_le_of_ne (hle y hy) heq
  · refine List.pairwise_append.mpr ⟨pairwise_page, pairwise_sorted key _, fun a ha b hb => ?_⟩
    exact (le_getLast_page ha hlast).trans ((mem_pastPlace.mp hb).2 _ rfl).le
  · exact pairwise_sorted key _
  · intro a ha b hb
    have hrows : ∀ z ∈ page key rows after n ++ pastPlace key rows (some (key y)), z ∈ rows := by
      intro z hz
      rcases List.mem_append.mp hz with h | h
      · exact (mem_of_mem_page h).1
      · exact (mem_pastPlace.mp h).1
    exact hinj a (hrows a ha) b (hrows b hb)

/-- A page that is not full leaves nothing. -/
theorem page_eq_pastPlace (hshort : (page key rows after n).length < n) :
    page key rows after n = pastPlace key rows after := by
  have htake : page key rows after n = (pastPlace key rows after).take n := rfl
  rw [htake] at hshort ⊢
  rw [List.length_take] at hshort
  exact List.take_of_length_le (by omega)

end Machine
