import DjangoOx.Machine.Offsets

/-! How a local clock is read: its changes with the offsets either side, the pass an instant is on,
and the offset that a label and a pass are read with. -/
namespace Offsets

/-- One change of the offset: when, and the offsets either side. -/
structure Change where
  instant : ℤ
  before : ℤ
  after : ℤ
  deriving DecidableEq, Repr

/-- The changes, with the offset before each. -/
def moves (o : Offsets) : List Change :=
  ((o.initial :: o.changes.map (·.2)).zip o.changes).map fun p => ⟨p.2.1, p.1, p.2.2⟩

/-- The offset after the last of some changes, in the order they come. -/
def offsetBy (o : Offsets) (p : Change → Prop) [DecidablePred p] : ℤ :=
  match (o.moves.filter p).getLast? with
  | some m => m.after
  | none => o.initial

/-- The label from which on a change is taken to have come: on the first pass the later of the two
it has at the change, on the second the earlier. -/
def Change.turn (m : Change) (second : Bool) : ℤ :=
  m.instant + if second then min m.before m.after else max m.before m.after

/-- The offset a label is read with. -/
def readOffset (o : Offsets) (l : ℤ) (second : Bool) : ℤ := o.offsetBy fun m => m.turn second ≤ l

/-- The label of an instant is on its second pass. -/
def foldAt (o : Offsets) (u : ℤ) : Bool :=
  match (o.moves.filter (·.instant ≤ u)).getLast? with
  | some m => u - m.instant < m.before - m.after
  | none => false

variable {o : Offsets} {a u l : ℤ} {m : Change}

theorem moves_map (o : Offsets) : (o.moves.map fun m => (m.instant, m.after)) = o.changes := by
  have hlen : o.changes.length ≤ (o.initial :: o.changes.map (·.2)).length := by simp
  unfold moves
  rw [List.map_map]
  exact List.map_snd_zip hlen

theorem pairwise_moves (o : Offsets) : o.moves.Pairwise fun m n => m.instant < n.instant := by
  have hs := o.sorted
  rw [← moves_map, List.pairwise_map] at hs
  exact hs

theorem offsetAt_eq (o : Offsets) (u : ℤ) : o.offsetAt u = o.offsetBy fun m => m.instant ≤ u := by
  have hlast : (o.changes.filter (·.1 ≤ u)).getLast? =
      ((o.moves.filter (·.instant ≤ u)).getLast?).map fun m => (m.instant, m.after) := by
    rw [← moves_map, List.filter_map, List.getLast?_map]
    rfl
  unfold offsetAt offsetBy
  rw [hlast]
  cases (o.moves.filter fun m => decide (m.instant ≤ u)).getLast? <;> rfl

theorem offsetBy_mem (o : Offsets) (p : Change → Prop) [DecidablePred p] :
    o.offsetBy p ∈ o.initial :: o.changes.map (·.2) := by
  unfold offsetBy
  split
  · next m hm =>
    have hmem := List.mem_of_mem_filter (List.mem_of_getLast? hm)
    rw [← moves_map, List.map_map]
    exact List.mem_cons_of_mem _ (List.mem_map_of_mem hmem)
  · exact List.mem_cons_self

/-- The changes that count decide the offset. -/
theorem offsetBy_congr {p q : Change → Prop} [DecidablePred p] [DecidablePred q]
    (h : ∀ m ∈ o.moves, p m ↔ q m) : o.offsetBy p = o.offsetBy q := by
  have hfilter : o.moves.filter p = o.moves.filter q := by
    apply List.filter_congr
    intro m hm
    simp [h m hm]
  unfold offsetBy
  rw [hfilter]

/-- The last of the changes up to an instant. -/
theorem exists_last (h : ∃ m ∈ o.moves, m.instant ≤ u) :
    ∃ m ∈ o.moves, m.instant ≤ u ∧ ∀ n ∈ o.moves, n.instant ≤ u → n.instant ≤ m.instant := by
  obtain ⟨m, hm, hmu⟩ := h
  have hmem : m ∈ o.moves.filter (·.instant ≤ u) :=
    List.mem_filter.mpr ⟨hm, decide_eq_true hmu⟩
  obtain ⟨last, hlast⟩ : ∃ last, (o.moves.filter (·.instant ≤ u)).getLast? = some last :=
    Option.isSome_iff_exists.mp (List.getLast?_isSome.mpr (List.ne_nil_of_mem hmem))
  obtain ⟨hl, hlu⟩ := List.mem_filter.mp (List.mem_of_getLast? hlast)
  obtain ⟨init, hinit⟩ := List.getLast?_eq_some_iff.mp hlast
  have hsorted : (init ++ [last]).Pairwise fun m n => m.instant < n.instant :=
    hinit ▸ o.pairwise_moves.sublist List.filter_sublist
  refine ⟨last, hl, of_decide_eq_true hlu, fun n hn hnu => ?_⟩
  have hn' : n ∈ init ++ [last] := hinit ▸ List.mem_filter.mpr ⟨hn, decide_eq_true hnu⟩
  rcases List.mem_append.mp hn' with hn' | hn'
  · exact ((List.pairwise_append.mp hsorted).2.2 n hn' last (by simp)).le
  · exact (List.mem_singleton.mp hn') ▸ le_rfl

/-- No change comes between two instants of one offset. -/
theorem offsetAt_of_none (hau : a ≤ u)
    (h : ∀ m ∈ o.moves, m.instant ≤ u → m.instant ≤ a) : o.offsetAt u = o.offsetAt a := by
  rw [offsetAt_eq, offsetAt_eq]
  exact offsetBy_congr fun m hm => ⟨h m hm, fun hle => hle.trans hau⟩

/-- Each change begins with the offset that the one before it ended with. -/
theorem before_eq {l : List (ℤ × ℤ)} {pre post : List Change}
    (h : (((a :: l.map (·.2)).zip l).map fun p => (⟨p.2.1, p.1, p.2.2⟩ : Change)) =
      pre ++ m :: post) :
    m.before = ((pre.getLast?).map (·.after)).getD a := by
  induction pre generalizing a l with
  | nil =>
    cases l with
    | nil => cases h
    | cons x l =>
      have hhead := (List.cons.inj h).1
      rw [← hhead]
      rfl
  | cons n pre ih =>
    cases l with
    | nil => cases h
    | cons x l =>
      obtain ⟨hhead, htail⟩ := List.cons.inj h
      have hbefore := ih htail
      cases hlast : pre.getLast? with
      | none =>
        obtain rfl := List.getLast?_eq_none_iff.mp hlast
        rw [hbefore, hlast, ← hhead]
        rfl
      | some k =>
        rw [hbefore, List.getLast?_cons, hlast]
        rfl

/-- A change splits the others into those before it and those after it. -/
theorem exists_split (hm : m ∈ o.moves) : ∃ pre post, o.moves = pre ++ m :: post ∧
    (∀ n ∈ pre, n.instant < m.instant) ∧ ∀ n ∈ post, m.instant < n.instant := by
  obtain ⟨pre, post, h⟩ := List.append_of_mem hm
  have hsorted := h ▸ o.pairwise_moves
  obtain ⟨-, hpost, hpre⟩ := List.pairwise_append.mp hsorted
  exact ⟨pre, post, h, fun n hn => hpre n hn m List.mem_cons_self,
    (List.pairwise_cons.mp hpost).1⟩

theorem filter_append_eq {pre post : List Change} {p : Change → Prop} [DecidablePred p]
    (hpre : ∀ n ∈ pre, p n) (hpost : ∀ n ∈ post, ¬ p n) : (pre ++ post).filter p = pre := by
  have hleft : pre.filter p = pre :=
    List.filter_eq_self.mpr fun n hn => decide_eq_true (hpre n hn)
  have hright : post.filter p = [] := by
    apply List.filter_eq_nil_iff.mpr
    intro n hn
    rw [decide_eq_true_eq]
    exact hpost n hn
  rw [List.filter_append, hleft, hright, List.append_nil]

/-- The changes up to one end with it. -/
theorem getLast_upto {p : Change → Prop} [DecidablePred p] (hm : m ∈ o.moves)
    (h : ∀ n ∈ o.moves, p n ↔ n.instant ≤ m.instant) :
    (o.moves.filter p).getLast? = some m := by
  obtain ⟨pre, post, heq, hpre, hpost⟩ := exists_split hm
  have hsplit : o.moves = (pre ++ [m]) ++ post := by
    rw [heq]
    simp
  have hfilter : o.moves.filter p = pre ++ [m] := by
    rw [hsplit] at h ⊢
    refine filter_append_eq (fun n hn => (h n (List.mem_append_left _ hn)).mpr ?_) fun n hn hp => ?_
    · rcases List.mem_append.mp hn with hn | hn
      · exact (hpre n hn).le
      · exact (List.mem_singleton.mp hn) ▸ le_rfl
    · have hle := (h n (List.mem_append_right _ hn)).mp hp
      have hlt := hpost n hn
      omega
  rw [hfilter, List.getLast?_concat]

/-- Up to a change, its own offset counts. -/
theorem offsetBy_upto {p : Change → Prop} [DecidablePred p] (hm : m ∈ o.moves)
    (h : ∀ n ∈ o.moves, p n ↔ n.instant ≤ m.instant) : o.offsetBy p = m.after := by
  unfold offsetBy
  rw [getLast_upto hm h]

/-- Before a change, the offset it comes from counts. -/
theorem offsetBy_before {p : Change → Prop} [DecidablePred p] (hm : m ∈ o.moves)
    (h : ∀ n ∈ o.moves, p n ↔ n.instant < m.instant) : o.offsetBy p = m.before := by
  obtain ⟨pre, post, heq, hpre, hpost⟩ := exists_split hm
  have hfilter : o.moves.filter p = pre := by
    rw [heq] at h ⊢
    refine filter_append_eq (fun n hn => (h n (List.mem_append_left _ hn)).mpr (hpre n hn))
      fun n hn hp => ?_
    have hlt := (h n (List.mem_append_right _ hn)).mp hp
    rcases List.mem_cons.mp hn with rfl | hn
    · omega
    · have hlt' := hpost n hn
      omega
  unfold offsetBy
  rw [hfilter, before_eq heq]
  cases pre.getLast? <;> rfl

/-- The last change up to an instant decides the pass. -/
theorem foldAt_of_last (hm : m ∈ o.moves) (hu : m.instant ≤ u)
    (h : ∀ n ∈ o.moves, n.instant ≤ u → n.instant ≤ m.instant) :
    o.foldAt u = decide (u - m.instant < m.before - m.after) := by
  have hlast := getLast_upto hm fun n hn => ⟨h n hn, fun hle => hle.trans hu⟩
  unfold foldAt
  rw [hlast]

/-- The changes come in the order of the labels they come at, on both passes. -/
def Ordered (o : Offsets) : Prop :=
  ∀ second, o.moves.Pairwise fun m n => m.turn second ≤ n.turn second

/-- Later changes are taken to have come from the next one's turn on. -/
theorem Ordered.lt_turn {n : Change} {second : Bool} (ho : o.Ordered) (hm : m ∈ o.moves)
    (hnext : ∀ k ∈ o.moves, m.instant < k.instant → k.before = m.after → l < k.turn second)
    (hn : n ∈ o.moves) (hlt : m.instant < n.instant) : l < n.turn second := by
  obtain ⟨pre, post, heq, hpre, hpost⟩ := exists_split hm
  have hturn := heq ▸ ho second
  have hn' : n ∈ post := by
    rw [heq, List.mem_append, List.mem_cons] at hn
    rcases hn with hn | rfl | hn
    · have := hpre n hn
      omega
    · omega
    · exact hn
  cases post with
  | nil => cases hn'
  | cons k post =>
    have hk : k ∈ o.moves := by
      rw [heq]
      simp
    have hsplit : o.moves = (pre ++ [m]) ++ k :: post := by
      rw [heq]
      simp
    have hbefore : k.before = m.after := by
      rw [before_eq hsplit, List.getLast?_concat]
      rfl
    have hk' := hnext k hk (hpost k List.mem_cons_self) hbefore
    rcases List.mem_cons.mp hn' with rfl | hn'
    · exact hk'
    · have htail := (List.pairwise_append.mp hturn).2.1
      have hle := (List.pairwise_cons.mp (List.pairwise_cons.mp htail).2).1 n hn'
      omega

end Offsets
