import DjangoOx.Machine.Act
import DjangoOx.Machine.Table
import Mathlib.Data.List.Count
import Mathlib.Data.List.Flatten

/-! Rows moved each by a value of its own: many in one statement, or one at a time in any order. -/
namespace Machine

namespace Table

variable {κ ρ β : Type*} [LinearOrder κ]

@[ext] theorem ext {t u : Table κ ρ} (hrows : t.rows = u.rows) (hkeys : t.keys = u.keys) :
    t = u := by
  cases t
  cases u
  cases hrows
  cases hkeys
  rfl

/-- `UPDATE .. WHERE key IN ks`: `f` answers the new row where the rest of the condition holds. -/
def updateIn (t : Table κ ρ) (ks : List κ) (f : κ → ρ → Option ρ) : Table κ ρ :=
  t.update fun k r => if k ∈ ks then f k r else none

/-- How many rows that `UPDATE` matches. -/
def matched (t : Table κ ρ) (ks : List κ) (f : κ → ρ → Option ρ) : ℕ :=
  (t.changed fun k r => if k ∈ ks then f k r else none).length

variable {t : Table κ ρ} {f g : κ → ρ → Option ρ} {ks ks' : List κ}

theorem rows_updateIn (t : Table κ ρ) (ks : List κ) (f : κ → ρ → Option ρ) (k : κ) :
    (t.updateIn ks f).rows k =
      if k ∈ ks then (t.rows k).map fun r => (f k r).getD r else t.rows k := by
  unfold updateIn
  rw [rows_update]
  by_cases hk : k ∈ ks
  · simp only [if_pos hk]
  · simp only [if_neg hk, Option.getD_none]
    exact Option.map_id'

theorem updateIn_nil (t : Table κ ρ) (f : κ → ρ → Option ρ) : t.updateIn [] f = t := by
  apply Table.ext
  · funext k
    rw [rows_updateIn, if_neg List.not_mem_nil]
  · rfl

/-- Only which keys are in the list matters, and what `f` answers for the rows of these. -/
theorem updateIn_congr (hks : ∀ k, k ∈ ks ↔ k ∈ ks')
    (h : ∀ k ∈ ks, ∀ r, t.rows k = some r → f k r = g k r) :
    t.updateIn ks f = t.updateIn ks' g := by
  apply Table.ext
  · funext k
    rw [rows_updateIn, rows_updateIn]
    by_cases hk : k ∈ ks
    · rw [if_pos hk, if_pos ((hks k).mp hk)]
      cases hr : t.rows k with
      | none => rfl
      | some r => rw [Option.map_some, Option.map_some, h k hk r hr]
    · rw [if_neg hk, if_neg fun hk' => hk ((hks k).mpr hk')]
  · rfl

/-- Two statements about different rows are one statement about them all. -/
theorem updateIn_append (hdisjoint : ks.Disjoint ks') :
    (t.updateIn ks f).updateIn ks' f = t.updateIn (ks ++ ks') f := by
  apply Table.ext
  · funext k
    simp only [rows_updateIn, List.mem_append]
    by_cases hk : k ∈ ks
    · rw [if_neg (hdisjoint hk), if_pos hk, if_pos (Or.inl hk)]
    · by_cases hk' : k ∈ ks'
      · rw [if_pos hk', if_neg hk, if_pos (Or.inr hk')]
      · rw [if_neg hk', if_neg hk, if_neg (not_or.mpr ⟨hk, hk'⟩)]
  · rfl

/-- The rows of distinct keys are matched key by key. -/
theorem matched_eq_countP (hks : ks.Nodup) :
    t.matched ks f = ks.countP fun k => ((t.rows k).bind (f k)).isSome := by
  rw [List.countP_eq_length_filter]
  apply List.Perm.length_eq
  rw [List.perm_ext_iff_of_nodup (t.changed_nodup _) (hks.filter _)]
  intro k
  rw [mem_changed, List.mem_filter, Option.isSome_iff_exists]
  simp only [Option.bind_eq_some_iff, Option.ite_none_right_eq_some]
  constructor
  · rintro ⟨r, r', hr, hk, hf⟩
    exact ⟨hk, r', r, hr, hf⟩
  · rintro ⟨hk, r', r, hr, hf⟩
    exact ⟨r, r', hr, hk, hf⟩

theorem matched_singleton (t : Table κ ρ) (f : κ → ρ → Option ρ) (k : κ) :
    t.matched [k] f = if ((t.rows k).bind (f k)).isSome then 1 else 0 := by
  rw [matched_eq_countP (List.nodup_singleton k), List.countP_singleton]

theorem matched_nil (t : Table κ ρ) (f : κ → ρ → Option ρ) : t.matched [] f = 0 :=
  matched_eq_countP List.nodup_nil

theorem matched_congr (hks : ks.Nodup) (hks' : ks'.Nodup) (hmem : ∀ k, k ∈ ks ↔ k ∈ ks')
    (h : ∀ k ∈ ks, ∀ r, t.rows k = some r → f k r = g k r) :
    t.matched ks f = t.matched ks' g := by
  rw [matched_eq_countP hks, matched_eq_countP hks',
    ← ((List.perm_ext_iff_of_nodup hks hks').mpr hmem).countP_eq]
  apply List.countP_congr
  intro k hk
  cases hr : t.rows k with
  | none => rfl
  | some r => rw [Option.bind_some, Option.bind_some, h k hk r hr]

/-- What the first statement leaves of the second's rows is all of them. -/
theorem matched_append (hks : (ks ++ ks').Nodup) :
    t.matched ks f + (t.updateIn ks f).matched ks' f = t.matched (ks ++ ks') f := by
  obtain ⟨hleft, hright, hdisjoint⟩ := List.nodup_append'.mp hks
  rw [matched_eq_countP hks, matched_eq_countP hleft, matched_eq_countP hright,
    List.countP_append]
  congr 1
  apply List.countP_congr
  intro k hk
  rw [rows_updateIn, if_neg fun hk' => hdisjoint hk' hk]

/-- A statement that matches no row changes none. -/
theorem updateIn_singleton_of_none {k : κ} (h : (t.rows k).bind (f k) = none) :
    t.updateIn [k] f = t := by
  apply Table.ext
  · funext j
    rw [rows_updateIn]
    by_cases hj : j ∈ [k]
    · rw [if_pos hj]
      obtain rfl := List.mem_singleton.mp hj
      cases hr : t.rows j with
      | none => rfl
      | some r =>
        rw [hr, Option.bind_some] at h
        rw [Option.map_some, h]
        rfl
    · rw [if_neg hj]
  · rfl

end Table

section OneByOne

variable {κ ρ β : Type*} [LinearOrder κ]

/-- One more call: how many calls so far answered that they moved a row, and the table. -/
def callNext (single : β → Table κ ρ → Bool × Table κ ρ) (done : ℕ × Table κ ρ) (x : β) :
    ℕ × Table κ ρ :=
  let answer := single x done.2
  (if answer.1 then done.1 + 1 else done.1, answer.2)

/-- One call after the other. -/
def oneByOne (single : β → Table κ ρ → Bool × Table κ ρ) (order : List β) (t : Table κ ρ) :
    ℕ × Table κ ρ :=
  order.foldl (callNext single) (0, t)

/-- A call moves the row of its key by `f`, if it has a key. -/
def Moves (single : β → Table κ ρ → Bool × Table κ ρ) (key : β → Option κ)
    (f : κ → ρ → Option ρ) (x : β) : Prop :=
  ∀ t, single x t =
    match key x with
    | none => (false, t)
    | some k => (t.matched [k] f == 1, t.updateIn [k] f)

variable {single : β → Table κ ρ → Bool × Table κ ρ} {key : β → Option κ} {f : κ → ρ → Option ρ}

theorem callNext_of_none {x : β} (h : Moves single key f x) (hk : key x = none)
    (done : ℕ × Table κ ρ) : callNext single done x = done := by
  unfold callNext
  rw [h done.2, hk]
  rfl

theorem callNext_of_some {x : β} {k : κ} (h : Moves single key f x) (hk : key x = some k)
    (done : ℕ × Table κ ρ) :
    callNext single done x = (done.1 + done.2.matched [k] f, done.2.updateIn [k] f) := by
  unfold callNext
  rw [h done.2, hk]
  dsimp only
  rw [Table.matched_singleton]
  by_cases hrow : ((done.2.rows k).bind (f k)).isSome
  · rw [if_pos hrow]
    rfl
  · rw [if_neg hrow]
    rfl

/-- Calls for distinct keys do together what one statement for all the keys does. -/
theorem foldl_callNext {order : List β} (h : ∀ x ∈ order, Moves single key f x)
    (hkeys : (order.filterMap key).Nodup) (done : ℕ × Table κ ρ) :
    order.foldl (callNext single) done =
      (done.1 + done.2.matched (order.filterMap key) f,
        done.2.updateIn (order.filterMap key) f) := by
  induction order generalizing done with
  | nil =>
    rw [List.foldl_nil, List.filterMap_nil, Table.matched_nil, Table.updateIn_nil, Nat.add_zero]
  | cons x order ih =>
    have hx := h x List.mem_cons_self
    have hrest : ∀ y ∈ order, Moves single key f y := fun y hy => h y (List.mem_cons_of_mem _ hy)
    rw [List.foldl_cons]
    cases hk : key x with
    | none =>
      rw [List.filterMap_cons_none hk] at hkeys ⊢
      rw [callNext_of_none hx hk, ih hrest hkeys]
    | some k =>
      rw [List.filterMap_cons_some hk] at hkeys ⊢
      have hsplit : ([k] ++ order.filterMap key).Nodup := hkeys
      rw [callNext_of_some hx hk, ih hrest (List.nodup_cons.mp hkeys).2,
        Table.updateIn_append (List.nodup_append'.mp hsplit).2.2, Nat.add_assoc,
        Table.matched_append hsplit]
      rfl

theorem oneByOne_eq {order : List β} (h : ∀ x ∈ order, Moves single key f x)
    (hkeys : (order.filterMap key).Nodup) (t : Table κ ρ) :
    oneByOne single order t =
      (t.matched (order.filterMap key) f, t.updateIn (order.filterMap key) f) := by
  unfold oneByOne
  rw [foldl_callNext h hkeys, Nat.zero_add]

end OneByOne

section Single

variable {κ ρ : Type*} [LinearOrder κ]

/-- A read of one row that meets `p`, and the `UPDATE` by what was read; whether it matched. -/
def readThenMove (p : ρ → Bool) (g : ρ → ρ → Option ρ) (k : κ) (t : Table κ ρ) :
    Bool × Table κ ρ :=
  match (t.rows k).filter p with
  | none => (false, t)
  | some seen => (t.matched [k] (fun _ => g seen) == 1, t.updateIn [k] fun _ => g seen)

/-- With nobody else about, the read and the `UPDATE` are one `UPDATE` by the row itself. -/
theorem readThenMove_eq {p : ρ → Bool} {g : ρ → ρ → Option ρ} {f : ρ → Option ρ}
    (hmove : ∀ r, p r = true → g r r = f r) (hstay : ∀ r, p r = false → f r = none) (k : κ)
    (t : Table κ ρ) :
    readThenMove p g k t = (t.matched [k] (fun _ => f) == 1, t.updateIn [k] fun _ => f) := by
  unfold readThenMove
  have hnone : (t.rows k).bind f = none →
      (false, t) = (t.matched [k] (fun _ => f) == 1, t.updateIn [k] fun _ => f) := by
    intro h
    rw [Table.matched_singleton, Table.updateIn_singleton_of_none h, h]
    rfl
  cases hr : t.rows k with
  | none => exact hnone (by rw [hr]; rfl)
  | some r =>
    cases hp : p r with
    | false =>
      rw [Option.filter_some, hp]
      exact hnone (by rw [hr]; exact hstay r hp)
    | true =>
      rw [Option.filter_some, hp]
      have hsame : ∀ j ∈ [k], ∀ r', t.rows j = some r' → g r r' = f r' := by
        intro j hj r' hr'
        rw [List.mem_singleton.mp hj, hr] at hr'
        obtain rfl := Option.some.inj hr'
        exact hmove r hp
      have hnodup := List.nodup_singleton k
      have hcount : t.matched [k] (fun _ => g r) = t.matched [k] fun _ => f :=
        Table.matched_congr hnodup hnodup (fun _ => Iff.rfl) hsame
      have hrows : t.updateIn [k] (fun _ => g r) = t.updateIn [k] fun _ => f :=
        Table.updateIn_congr (fun _ => Iff.rfl) hsame
      change (t.matched [k] (fun _ => g r) == 1, _) = _
      rw [hcount, hrows]

end Single

section ByChunks

variable {κ ρ : Type*} [LinearOrder κ] {t : Table κ ρ} {f : κ → ρ → Option ρ}

/-- Every chunk's rows are all as in `after` or all as in `before`, and no other row moved. -/
def ByChunks (chunks : List (List κ)) (before after t : Table κ ρ) : Prop :=
  (∀ c ∈ chunks, (∀ k ∈ c, t.rows k = after.rows k) ∨ ∀ k ∈ c, t.rows k = before.rows k) ∧
    ∀ k, k ∉ chunks.flatten → t.rows k = before.rows k

/-- Some of the chunks were moved before the others. -/
theorem byChunks_append {done rest : List (List κ)} (hnodup : (done ++ rest).flatten.Nodup) :
    ByChunks (done ++ rest) t (t.updateIn (done ++ rest).flatten f)
      (t.updateIn done.flatten f) := by
  rw [List.flatten_append] at hnodup
  have hdisjoint := (List.nodup_append'.mp hnodup).2.2
  refine ⟨fun c hc => ?_, fun k hk => ?_⟩
  · rcases List.mem_append.mp hc with hdone | hrest
    · refine Or.inl fun k hk => ?_
      have hmem : k ∈ done.flatten := List.mem_flatten.mpr ⟨c, hdone, hk⟩
      rw [Table.rows_updateIn, Table.rows_updateIn, if_pos hmem, List.flatten_append,
        if_pos (List.mem_append_left _ hmem)]
    · refine Or.inr fun k hk => ?_
      have hmem : k ∈ rest.flatten := List.mem_flatten.mpr ⟨c, hrest, hk⟩
      rw [Table.rows_updateIn, if_neg fun hdone => hdisjoint hdone hmem]
  · rw [List.flatten_append, List.mem_append, not_or] at hk
    rw [Table.rows_updateIn, if_neg hk.1]

end ByChunks

section Chunks

variable {κ ρ σ ε γ : Type} [LinearOrder κ] {f : κ → ρ → Option ρ}

/-- A loop of statements, each about rows of its own, is one statement about them all; where it
raises, it is the first of them that were carried out. -/
theorem holds_chunks {chunks : List γ} {keys : γ → List κ} {step : ℕ → γ → Act σ ε ℕ}
    {Pre : Table κ ρ → σ → Prop} {Err : ε → Prop} (hnodup : (chunks.flatMap keys).Nodup)
    (hstep : ∀ n, ∀ c ∈ chunks, ∀ t s, Pre t s → (step n c).Holds s
      (fun m s' => m = n + t.matched (keys c) f ∧ Pre (t.updateIn (keys c) f) s')
      fun e s' => Err e ∧ Pre t s')
    {t : Table κ ρ} {s : σ} (h : Pre t s) :
    (chunks.foldlM step 0).Holds s
      (fun n s' => n = t.matched (chunks.flatMap keys) f ∧
        Pre (t.updateIn (chunks.flatMap keys) f) s')
      fun e s' => Err e ∧ ∃ done rest, chunks = done ++ rest ∧
        Pre (t.updateIn (done.flatMap keys) f) s' := by
  have hloop : ∀ c rest n s, (∃ done, chunks = done ++ c :: rest ∧
        n = t.matched (done.flatMap keys) f ∧ Pre (t.updateIn (done.flatMap keys) f) s) →
      (step n c).Holds s
        (fun m s' => ∃ done, chunks = done ++ rest ∧
          m = t.matched (done.flatMap keys) f ∧ Pre (t.updateIn (done.flatMap keys) f) s')
        fun e s' => Err e ∧ ∃ done rest, chunks = done ++ rest ∧
          Pre (t.updateIn (done.flatMap keys) f) s' := by
    rintro c rest n s ⟨done, hchunks, hn, hpre⟩
    have hc : c ∈ chunks := by
      rw [hchunks]
      simp
    have hsplit : (done.flatMap keys ++ keys c).Nodup := by
      rw [hchunks, List.flatMap_append, List.flatMap_cons, ← List.append_assoc] at hnodup
      exact (List.nodup_append'.mp hnodup).1
    have hkeys : (done ++ [c]).flatMap keys = done.flatMap keys ++ keys c := by
      rw [List.flatMap_append, List.flatMap_singleton]
    refine (hstep n c hc _ s hpre).mono ?_ ?_
    · rintro m s' ⟨hm, hpre'⟩
      refine ⟨done ++ [c], by rw [hchunks, List.append_assoc, List.singleton_append], ?_, ?_⟩
      · rw [hm, hn, hkeys, Table.matched_append hsplit]
      · rwa [hkeys, ← Table.updateIn_append (List.nodup_append'.mp hsplit).2.2]
    · rintro e s' ⟨he, hpre'⟩
      exact ⟨he, done, c :: rest, hchunks, hpre'⟩
  have hstart : ∃ done, chunks = done ++ chunks ∧ 0 = t.matched (done.flatMap keys) f ∧
      Pre (t.updateIn (done.flatMap keys) f) s :=
    ⟨[], rfl, (Table.matched_nil t f).symm, by rwa [List.flatMap_nil, Table.updateIn_nil]⟩
  refine (Act.Holds.foldlM (fun rest n s => ∃ done, chunks = done ++ rest ∧
    n = t.matched (done.flatMap keys) f ∧ Pre (t.updateIn (done.flatMap keys) f) s)
    hloop chunks hstart).mono ?_ fun _ _ he => he
  rintro n s' ⟨done, hdone, hn, hpre⟩
  rw [List.append_nil] at hdone
  rw [hdone]
  exact ⟨hn, hpre⟩

end Chunks

end Machine
