import DjangoOx.Workflow.SkipQueue

/-! What the skip queue of one workflow keeps while the workflow is not complete: its ids are in the
queue, with the taker that has them, or in the log. -/
namespace DjangoOx

open Machine

variable {W ι : Type} [LinearOrder W] [LinearOrder ι]

/-- What an add has read of a workflow's queue. -/
def SkipAdd.seen (w : W) : SkipAdd W ι → List (List ι × ℕ)
  | .merging w' _ _ _ (some x) => if w' = w then [x] else []
  | _ => []

/-- The queues a take is still to try. -/
def SkipTake.queues : SkipTake W ι → List (W × List ι × ℕ)
  | .read queues | .taking queues _ => queues
  | _ => []

/-- The ids a take has. -/
def SkipTake.ids : SkipTake W ι → List ι
  | .taking _ taken | .returned taken => taken
  | _ => []

/-- The ids the moves say a take got. -/
def takenBy (t : ℕ) (moves : List (Move ℕ (W × ι))) : List ι :=
  moves.filterMap fun
    | .put _ _ => none
    | .took t' k => if t' = t then some k.2 else none

namespace SkipState

variable {s s' : SkipState W ι} {w w' : W} {a t v : ℕ}

/-- What was read is what the row still holds, or the row has been written since. -/
def Snapshot (s : SkipState W ι) (w : W) (x : List ι × ℕ) : Prop :=
  ∃ r, s.scans.get? w = some r ∧ x.2 ≤ r.version ∧ (x.2 = r.version → r.skipped = x.1)

/-- The scan row of the workflow is as it was, or a later version of it. -/
def Later (s s' : SkipState W ι) (w : W) : Prop :=
  ∀ r, s.scans.get? w = some r →
    ∃ r', s'.scans.get? w = some r' ∧ (r' = r ∨ r.version < r'.version)

omit [LinearOrder ι] in
theorem Later.of_eq (h : s'.scans.get? w = s.scans.get? w) : s.Later s' w :=
  fun r hr => ⟨r, h.trans hr, .inl rfl⟩

omit [LinearOrder ι] in
theorem Snapshot.later {x : List ι × ℕ} (h : s.Snapshot w x) (hl : s.Later s' w) :
    s'.Snapshot w x := by
  obtain ⟨r, hr, hle, heq⟩ := h
  obtain ⟨r', hr', rfl | hlt⟩ := hl r hr
  · exact ⟨r', hr', hle, heq⟩
  · exact ⟨r', hr', by omega, fun h => by omega⟩

structure SkipInv (s : SkipState W ι) (w : W) : Prop where
  nodup : (s.queue w).Nodup
  bounded : (s.queue w).length ≤ skipQueueLimit
  held : ∀ id, Move.held (w, id) s.moves = true ↔ id ∈ s.queue w
  lawful : ∀ id, Move.Lawful (w, id) s.moves
  accounted : ∀ a ids, (a, w, ids) ∈ s.finished → ∀ id ∈ ids,
    Move.put a (w, id) ∈ s.moves ∨ ∃ why, (a, w, id, why) ∈ s.dropped
  merging : ∀ a, ∀ x ∈ (s.adds a).seen w, s.Snapshot w x
  taking : ∀ t, ∀ q, (w, q) ∈ (s.takes t).queues → s.Snapshot w q

omit [LinearOrder ι] in
theorem queue_of_get? {r : WorkflowScan ι} (h : s.scans.get? w = some r) :
    s.queue w = r.skipped := by
  simp [queue, h]

omit [LinearOrder ι] in
theorem queue_congr (h : s'.scans.get? w = s.scans.get? w) : s'.queue w = s.queue w := by
  unfold queue
  rw [h]

omit [LinearOrder ι] in
theorem get?_setScan (r : WorkflowScan ι) :
    (s.setScan w' r).scans.get? w = if w = w' then some r else s.scans.get? w :=
  Dict.get?_set _ _ _ _

omit [LinearOrder ι] in
theorem later_setScan {r : WorkflowScan ι} (h : ∀ r₀, s.scans.get? w' = some r₀ →
    r = r₀ ∨ r₀.version < r.version) : s.Later (s.setScan w' r) w := by
  intro r₀ hr₀
  rw [get?_setScan]
  split_ifs with hw
  · exact ⟨r, rfl, h r₀ (hw ▸ hr₀)⟩
  · exact ⟨r₀, hr₀, .inl rfl⟩

/-- A step that leaves the queue of the workflow, its moves and its log as they are. -/
theorem SkipInv.keep (hi : s.SkipInv w) (hq : s'.queue w = s.queue w) (hm : s'.moves = s.moves)
    (hd : s'.dropped = s.dropped) (hf : s'.finished = s.finished) (hl : s.Later s' w)
    (ha : ∀ a, ∀ x ∈ (s'.adds a).seen w, x ∈ (s.adds a).seen w ∨ s'.Snapshot w x)
    (ht : ∀ t, ∀ q, (w, q) ∈ (s'.takes t).queues →
      (w, q) ∈ (s.takes t).queues ∨ s'.Snapshot w q) : s'.SkipInv w where
  nodup := hq ▸ hi.nodup
  bounded := hq ▸ hi.bounded
  held id := by
    rw [hm, hq]
    exact hi.held id
  lawful id := hm ▸ hi.lawful id
  accounted := by
    rw [hf, hm, hd]
    exact hi.accounted
  merging a x hx := (ha a x hx).elim (fun h => (hi.merging a x h).later hl) id
  taking t q hq' := (ht t q hq').elim (fun h => (hi.taking t q h).later hl) id

theorem SkipInv.setAdd (hi : s.SkipInv w) {x : SkipAdd W ι}
    (h : ∀ y ∈ x.seen w, y ∈ (s.adds a).seen w ∨ s.Snapshot w y) : (s.setAdd a x).SkipInv w := by
  refine hi.keep rfl rfl rfl rfl (.of_eq rfl) ?_ fun _ _ hq => .inl hq
  intro b y hy
  by_cases hb : b = a
  · subst hb
    rw [show (s.setAdd b x).adds b = x from Function.update_self ..] at hy
    exact h y hy
  · rw [show (s.setAdd a x).adds b = s.adds b from Function.update_of_ne hb ..] at hy
    exact .inl hy

theorem SkipInv.setTake (hi : s.SkipInv w) {x : SkipTake W ι}
    (h : ∀ q, (w, q) ∈ x.queues → (w, q) ∈ (s.takes t).queues ∨ s.Snapshot w q) :
    (s.setTake t x).SkipInv w := by
  refine hi.keep rfl rfl rfl rfl (.of_eq rfl) (fun _ _ hx => .inl hx) ?_
  intro u q hq
  by_cases hu : u = t
  · subst hu
    rw [show (s.setTake u x).takes u = x from Function.update_self ..] at hq
    exact h q hq
  · rw [show (s.setTake t x).takes u = s.takes u from Function.update_of_ne hu ..] at hq
    exact .inl hq

theorem SkipInv.setVisit (hi : s.SkipInv w) (x : ScanVisit W) : (s.setVisit v x).SkipInv w :=
  hi.keep rfl rfl rfl rfl (.of_eq rfl) (fun _ _ hx => .inl hx) fun _ _ hq => .inl hq

/-- A write of the row that keeps the queued ids. -/
theorem SkipInv.setScan (hi : s.SkipInv w) {r : WorkflowScan ι}
    (hq : r.skipped = s.queue w')
    (hl : ∀ r₀, s.scans.get? w' = some r₀ → r₀.version < r.version) :
    (s.setScan w' r).SkipInv w := by
  have hqueue : (s.setScan w' r).queue w = s.queue w := by
    by_cases hw : w = w'
    · subst hw
      rw [queue_of_get? (r := r) (by rw [get?_setScan, if_pos rfl]), hq]
    · exact queue_congr (by rw [get?_setScan, if_neg hw])
  exact hi.keep hqueue rfl rfl rfl (later_setScan fun r₀ h => .inr (hl r₀ h))
    (fun _ _ hx => .inl hx) fun _ _ hq => .inl hq

section adding

variable {queued ids : List ι}

theorem mergeSkipped_eq (hnd : queued.Nodup) :
    mergeSkipped queued ids = queued ++ (ids.removeAll queued).eraseDups := by
  unfold mergeSkipped
  rw [List.eraseDups_append, eraseDups_of_nodup hnd]

theorem mergeSkipped_nodup : (mergeSkipped queued ids).Nodup :=
  nodup_eraseDups _

/-- What was queued stays queued. -/
theorem mem_kept_of_queued (hnd : queued.Nodup) (hlen : queued.length ≤ skipQueueLimit) {id : ι}
    (h : id ∈ queued) : id ∈ (mergeSkipped queued ids).take skipQueueLimit := by
  rw [mergeSkipped_eq hnd, List.take_append, List.take_of_length_le hlen]
  exact List.mem_append_left _ h

theorem mem_queued_or_ids_of_kept {id : ι}
    (h : id ∈ (mergeSkipped queued ids).take skipQueueLimit) : id ∈ queued ∨ id ∈ ids := by
  have := List.mem_eraseDups.mp (List.mem_of_mem_take h)
  exact List.mem_append.mp this

/-- Every id given is kept or logged. -/
theorem mem_kept_or_overflow (queued : List ι) {id : ι} (h : id ∈ ids) :
    id ∈ (mergeSkipped queued ids).take skipQueueLimit ∨
      id ∈ (mergeSkipped queued ids).drop skipQueueLimit := by
  have hmem : id ∈ mergeSkipped queued ids := List.mem_eraseDups.mpr (List.mem_append_right _ h)
  rwa [← List.take_append_drop skipQueueLimit (mergeSkipped queued ids), List.mem_append] at hmem

end adding

/-- A write that went through: it read the queue as it was, and leaves a later row. -/
theorem SkipInv.mergedScan_spec (hi : s.SkipInv w) {ids kept : List ι} {left : ℕ}
    {rest : List (W × List ι)} {row : Option (List ι × ℕ)} {r : WorkflowScan ι}
    (hadd : s.adds a = .merging w ids left rest row) (h : s.mergedScan w kept row = some r) :
    (row.map Prod.fst).getD [] = s.queue w ∧ r.skipped = kept ∧
      ∀ r₀, s.scans.get? w = some r₀ → r₀.version < r.version := by
  unfold mergedScan at h
  cases row with
  | none =>
    obtain ⟨hnone, h⟩ := Option.ite_none_left_eq_some.mp h
    obtain rfl := Option.some.inj h
    have hget : s.scans.get? w = none := by simpa using hnone
    refine ⟨by simp [queue, hget], rfl, fun r₀ hr₀ => ?_⟩
    rw [hget] at hr₀
    cases hr₀
  | some x =>
    obtain ⟨r₁, hr₁, h⟩ := Option.bind_eq_some_iff.mp h
    obtain ⟨hv, h⟩ := Option.ite_none_right_eq_some.mp h
    obtain rfl := Option.some.inj h
    obtain ⟨r₂, hr₂, -, hsame⟩ := hi.merging a x (by simp [hadd, SkipAdd.seen])
    obtain rfl := Option.some.inj (hr₁.symm.trans hr₂)
    refine ⟨?_, rfl, fun r₀ hr₀ => ?_⟩
    · rw [queue_of_get? hr₁, hsame hv.symm]
      rfl
    · obtain rfl := Option.some.inj (hr₁.symm.trans hr₀)
      change r₁.version < x.2 + 1
      omega

theorem held_puts {ks : List ι} {id : ι} :
    Move.held (w, id) (s.moves ++ ks.map fun k => .put a (w', k)) = true ↔
      Move.held (w, id) s.moves = true ∨ w = w' ∧ id ∈ ks := by
  have := Move.held_append_puts (k := (w, id)) (l := s.moves) (a := a)
    (ks.map fun k => (w', k))
  rw [List.map_map] at this
  refine this.trans (or_congr Iff.rfl ?_)
  simp [eq_comm, and_comm]

theorem held_takes {ks : List ι} {id : ι} :
    Move.held (w, id) (s.moves ++ ks.map fun k => .took t (w', k)) = true ↔
      Move.held (w, id) s.moves = true ∧ ¬ (w = w' ∧ id ∈ ks) := by
  have := Move.held_append_takes (k := (w, id)) (l := s.moves) (t := t)
    (ks.map fun k => (w', k))
  rw [List.map_map] at this
  refine this.trans (and_congr Iff.rfl (not_congr ?_))
  simp [eq_comm, and_comm]

theorem lawful_puts (h : ∀ id, Move.Lawful (w, id) s.moves) (ks : List ι) (id : ι) :
    Move.Lawful (w, id) (s.moves ++ ks.map fun k => .put a (w', k)) := by
  have := (h id).puts a (ks.map fun k => (w', k))
  rwa [List.map_map] at this

omit [LinearOrder W] [LinearOrder ι] in
theorem mem_finished_append {a b : ℕ} {ids ids' : List ι}
    (h : (b, w, ids') ∈ s.finished ++ [(a, w', ids)]) :
    (b, w, ids') ∈ s.finished ∨ b = a ∧ w = w' ∧ ids' = ids := by
  simpa using h

/-- An add of another workflow. -/
theorem SkipInv.addDone_of_ne (hi : s.SkipInv w) (hw : w' ≠ w) {ids kept overflow : List ι}
    {r : WorkflowScan ι} : (s.addDone a w' ids kept overflow r).SkipInv w := by
  have hget : (s.addDone a w' ids kept overflow r).scans.get? w = s.scans.get? w := by
    rw [show (s.addDone a w' ids kept overflow r).scans = (s.setScan w' r).scans from rfl,
      get?_setScan, if_neg (Ne.symm hw)]
  have hqueue := queue_congr hget
  exact {
    nodup := hqueue ▸ hi.nodup
    bounded := hqueue ▸ hi.bounded
    held := fun id => by
      rw [hqueue, ← hi.held id]
      exact held_puts.trans (or_iff_left fun h => hw h.1.symm)
    lawful := lawful_puts hi.lawful _
    accounted := by
      intro b ids' h id hid
      rcases mem_finished_append h with h | ⟨-, rfl, -⟩
      · rcases hi.accounted b ids' h id hid with hm | ⟨why, hm⟩
        · exact .inl (List.mem_append_left _ hm)
        · exact .inr ⟨why, List.mem_append_left _ hm⟩
      · exact absurd rfl hw
    merging := fun b x hx => (hi.merging b x hx).later (.of_eq hget)
    taking := fun t q hq => (hi.taking t q hq).later (.of_eq hget) }

/-- An add of the workflow: what was queued stays, and each id given is in the queue or logged. -/
theorem SkipInv.addDone (hi : s.SkipInv w) {ids : List ι} {r : WorkflowScan ι}
    (hr : r.skipped = (mergeSkipped (s.queue w) ids).take skipQueueLimit)
    (hl : ∀ r₀, s.scans.get? w = some r₀ → r₀.version < r.version) :
    (s.addDone a w ids ((mergeSkipped (s.queue w) ids).take skipQueueLimit)
      ((mergeSkipped (s.queue w) ids).drop skipQueueLimit) r).SkipInv w := by
  set kept := (mergeSkipped (s.queue w) ids).take skipQueueLimit with hkept
  set overflow := (mergeSkipped (s.queue w) ids).drop skipQueueLimit with hoverflow
  have hqueue : (s.addDone a w ids kept overflow r).queue w = kept := by
    have hget : (s.addDone a w ids kept overflow r).scans.get? w = some r := by
      rw [show (s.addDone a w ids kept overflow r).scans = (s.setScan w r).scans from rfl,
        get?_setScan, if_pos rfl]
    rw [queue_of_get? hget, hr]
  have hlater : s.Later (s.addDone a w ids kept overflow r) w := by
    have hset : s.Later (s.setScan w r) w := later_setScan fun r₀ h => .inr (hl r₀ h)
    exact hset
  refine ⟨?_, ?_, ?_, lawful_puts hi.lawful _, ?_, ?_, ?_⟩
  · rw [hqueue, hkept]
    exact mergeSkipped_nodup.sublist (List.take_sublist _ _)
  · rw [hqueue, hkept]
    exact List.length_take_le _ _
  · intro id
    rw [hqueue]
    refine held_puts.trans ?_
    rw [hi.held id, List.mem_filter, decide_eq_true_eq]
    constructor
    · rintro (hq | ⟨-, hk, -⟩)
      · exact mem_kept_of_queued hi.nodup hi.bounded hq
      · exact hk
    · intro hk
      rcases mem_queued_or_ids_of_kept hk with hq | hid
      · exact .inl hq
      · exact .inr ⟨rfl, hk, hid⟩
  · intro b ids' h id hid
    rcases mem_finished_append h with h | ⟨rfl, -, rfl⟩
    · rcases hi.accounted b ids' h id hid with hm | ⟨why, hm⟩
      · exact .inl (List.mem_append_left _ hm)
      · exact .inr ⟨why, List.mem_append_left _ hm⟩
    · rcases mem_kept_or_overflow (s.queue w) hid with hk | hover
      · left
        apply List.mem_append_right
        exact List.mem_map.mpr ⟨id, List.mem_filter.mpr ⟨hk, by simpa using hid⟩, rfl⟩
      · exact .inr ⟨.overflow, List.mem_append_right _ (List.mem_map.mpr ⟨id, hover, rfl⟩)⟩
  · exact fun b x hx => (hi.merging b x hx).later hlater
  · exact fun t q hq => (hi.taking t q hq).later hlater

theorem SkipInv.addFailed (hi : s.SkipInv w) (ids : List ι) : (s.addFailed a w' ids).SkipInv w := by
  refine ⟨hi.nodup, hi.bounded, hi.held, hi.lawful, ?_, ?_, ?_⟩
  · intro b ids' h id hid
    rcases mem_finished_append h with h | ⟨rfl, rfl, rfl⟩
    · rcases hi.accounted b ids' h id hid with hm | ⟨why, hm⟩
      · exact .inl hm
      · exact .inr ⟨why, List.mem_append_left _ hm⟩
    · exact .inr ⟨.unqueued, List.mem_append_right _ (List.mem_map.mpr ⟨id, hid, rfl⟩)⟩
  · exact fun b x hx => (hi.merging b x hx).later (.of_eq rfl)
  · exact fun t q hq => (hi.taking t q hq).later (.of_eq rfl)

/-- A take from another workflow's queue. -/
theorem SkipInv.takeDone_of_ne (hi : s.SkipInv w) (hw : w' ≠ w) {take : List ι}
    {r : WorkflowScan ι} : (s.takeDone t w' take r).SkipInv w := by
  have hget : (s.takeDone t w' take r).scans.get? w = s.scans.get? w := by
    rw [show (s.takeDone t w' take r).scans = (s.setScan w' r).scans from rfl,
      get?_setScan, if_neg (Ne.symm hw)]
  have hqueue := queue_congr hget
  exact {
    nodup := hqueue ▸ hi.nodup
    bounded := hqueue ▸ hi.bounded
    held := fun id => by
      rw [hqueue, ← hi.held id]
      exact held_takes.trans (and_iff_left fun h => hw h.1.symm)
    lawful := fun id => by
      have := (hi.lawful id).takes_of_notMem t (take.map fun k => (w', k)) (by simp [hw])
      rwa [List.map_map] at this
    accounted := by
      intro b ids' h id hid
      rcases hi.accounted b ids' h id hid with hm | hm
      · exact .inl (List.mem_append_left _ hm)
      · exact .inr hm
    merging := fun b x hx => (hi.merging b x hx).later (.of_eq hget)
    taking := fun t q hq => (hi.taking t q hq).later (.of_eq hget) }

/-- A take from the workflow's queue, as it was read. -/
theorem SkipInv.takeDone (hi : s.SkipInv w) {room : ℕ} {r : WorkflowScan ι}
    (hr : r.skipped = (s.queue w).drop room)
    (hl : ∀ r₀, s.scans.get? w = some r₀ → r₀.version < r.version) :
    (s.takeDone t w ((s.queue w).take room) r).SkipInv w := by
  set take := (s.queue w).take room with htake
  have hsplit : s.queue w = take ++ (s.queue w).drop room := (List.take_append_drop _ _).symm
  have hqueue : (s.takeDone t w take r).queue w = (s.queue w).drop room := by
    have hget : (s.takeDone t w take r).scans.get? w = some r := by
      rw [show (s.takeDone t w take r).scans = (s.setScan w r).scans from rfl,
        get?_setScan, if_pos rfl]
    rw [queue_of_get? hget, hr]
  have hlater : s.Later (s.takeDone t w take r) w := by
    have hset : s.Later (s.setScan w r) w := later_setScan fun r₀ h => .inr (hl r₀ h)
    exact hset
  have hnd : take.Nodup := hi.nodup.sublist (List.take_sublist _ _)
  have hdisj : ∀ id, id ∈ take → id ∉ (s.queue w).drop room := by
    have := hi.nodup
    rw [hsplit, List.nodup_append] at this
    exact fun id h h' => this.2.2 id h id h' rfl
  refine ⟨?_, ?_, ?_, ?_, ?_, ?_, ?_⟩
  · rw [hqueue]
    exact hi.nodup.sublist (List.drop_sublist _ _)
  · rw [hqueue, List.length_drop]
    have := hi.bounded
    omega
  · intro id
    rw [hqueue]
    refine held_takes.trans ?_
    rw [hi.held id]
    constructor
    · rintro ⟨hq, hnot⟩
      rw [hsplit, List.mem_append] at hq
      exact hq.resolve_left fun h => hnot ⟨rfl, h⟩
    · exact fun h => ⟨List.mem_of_mem_drop h, fun ht => hdisj id ht.2 h⟩
  · intro id
    have := (hi.lawful id).takes t (take.map fun k => (w, k))
      (hnd.map fun _ _ h => (Prod.mk.inj h).2) fun hk => by
        obtain ⟨k, hmem, heq⟩ := List.mem_map.mp hk
        obtain rfl := (Prod.mk.inj heq).2
        exact (hi.held k).mpr (List.mem_of_mem_take hmem)
    rwa [List.map_map] at this
  · intro b ids' h id hid
    rcases hi.accounted b ids' h id hid with hm | hm
    · exact .inl (List.mem_append_left _ hm)
    · exact .inr hm
  · exact fun b x hx => (hi.merging b x hx).later hlater
  · exact fun t q hq => (hi.taking t q hq).later hlater

/-- The row a compare-and-set of a take meets holds what the take read. -/
theorem SkipInv.queue_of_version (hi : s.SkipInv w) {queued : List ι} {version : ℕ}
    {r : WorkflowScan ι} (hq : (w, queued, version) ∈ (s.takes t).queues)
    (hr : s.scans.get? w = some r) (hv : r.version = version) : queued = s.queue w := by
  obtain ⟨r', hr', -, hsame⟩ := hi.taking t _ hq
  obtain rfl := Option.some.inj (hr.symm.trans hr')
  rw [queue_of_get? hr, hsame hv.symm]

omit [LinearOrder ι] in
theorem mem_roundFrom {after : Option W} {queues : List (W × List ι × ℕ)} {q : W × List ι × ℕ}
    (h : q ∈ roundFrom after queues) : q ∈ queues := by
  unfold roundFrom at h
  cases after with
  | none => exact h
  | some after =>
    rcases List.mem_append.mp h with h | h
    · exact (List.dropWhile_sublist _).subset h
    · exact (List.takeWhile_sublist _).subset h

theorem SkipInv.addWrite (hi : s.SkipInv w) {ids : List ι} {left : ℕ}
    {rest : List (W × List ι)} {row : Option (List ι × ℕ)} {r : WorkflowScan ι}
    (hadd : s.adds a = .merging w' ids left rest row)
    (hr : s.mergedScan w' ((mergeSkipped ((row.map Prod.fst).getD []) ids).take skipQueueLimit) row =
      some r) :
    (s.addDone a w' ids ((mergeSkipped ((row.map Prod.fst).getD []) ids).take skipQueueLimit)
      ((mergeSkipped ((row.map Prod.fst).getD []) ids).drop skipQueueLimit) r).SkipInv w := by
  by_cases hw : w' = w
  · subst hw
    obtain ⟨hqueued, hkept, hlater⟩ := hi.mergedScan_spec hadd hr
    rw [hqueued] at hkept ⊢
    exact hi.addDone hkept hlater
  · exact hi.addDone_of_ne hw

theorem SkipInv.takeWrite (hi : s.SkipInv w) {queued : List ι} {room : ℕ} {r : WorkflowScan ι}
    (hq : (w', queued, r.version) ∈ (s.takes t).queues) (hr : s.scans.get? w' = some r) :
    (s.takeDone t w' (queued.take room)
      { r with skipped := queued.drop room, version := r.version + 1 }).SkipInv w := by
  by_cases hw : w' = w
  · subst hw
    obtain rfl := hi.queue_of_version hq hr rfl
    refine hi.takeDone rfl fun r₀ h => ?_
    obtain rfl := Option.some.inj (hr.symm.trans h)
    exact Nat.lt_succ_self _
  · exact hi.takeDone_of_ne hw

/-- A store of a place keeps every queue. -/
theorem SkipInv.stored (hi : s.SkipInv w) {r : WorkflowScan ι} (place : Place)
    (hr : s.scans.get? w' = some r) :
    (s.setScan w' { r with place := place, version := r.version + 1 }).SkipInv w := by
  refine hi.setScan (queue_of_get? hr).symm fun r₀ h => ?_
  obtain rfl := Option.some.inj (hr.symm.trans h)
  exact Nat.lt_succ_self _

theorem SkipInv.created (hi : s.SkipInv w) (place : Place) (hr : s.scans.get? w' = none) :
    (s.setScan w' ⟨place, [], 0⟩).SkipInv w := by
  refine hi.setScan (by simp [queue, hr]) fun r₀ h => ?_
  rw [hr] at h
  cases h

theorem SkipInv.step (hi : s.SkipInv w) {x : SkipAction W ι} (hx : x ≠ .complete w)
    (hs : s.step x = some s') : s'.SkipInv w := by
  cases x with
  | queueSkipped a nodes ids =>
    obtain ⟨-, hs⟩ := Option.ite_none_right_eq_some.mp hs
    obtain rfl := Option.some.inj hs
    exact hi.setAdd fun y hy => by cases hy
  | addNext a =>
    simp only [SkipState.step] at hs
    split at hs
    · obtain rfl := Option.some.inj hs
      exact hi.setAdd fun y hy => by cases hy
    · cases hs
  | addRead a =>
    simp only [SkipState.step] at hs
    split at hs
    · rename_i w' ids left rest hadd
      obtain rfl := Option.some.inj hs
      refine hi.setAdd fun y hy => .inr ?_
      cases hr : s.scans.get? w' with
      | none =>
        rw [hr] at hy
        cases hy
      | some r =>
        rw [hr] at hy
        simp only [Option.map_some, SkipAdd.seen] at hy
        split_ifs at hy with hw
        · obtain rfl := List.mem_singleton.mp hy
          exact ⟨r, hw ▸ hr, le_rfl, fun _ => rfl⟩
        · cases hy
    · cases hs
  | addWrite a =>
    simp only [SkipState.step] at hs
    split at hs
    · rename_i w' ids left rest row hadd
      split at hs
      · rename_i r hr
        obtain rfl := Option.some.inj hs
        exact (hi.addWrite hadd hr).setAdd fun y hy => by cases hy
      · obtain rfl := Option.some.inj hs
        exact hi.setAdd fun y hy => by cases hy
    · cases hs
  | addGiveUp a =>
    simp only [SkipState.step] at hs
    split at hs
    · rename_i w' ids rest hadd
      obtain rfl := Option.some.inj hs
      exact (hi.addFailed ids).setAdd fun y hy => by cases hy
    · cases hs
  | takeRead t =>
    obtain ⟨-, hs⟩ := Option.ite_none_right_eq_some.mp hs
    obtain rfl := Option.some.inj hs
    refine hi.setTake fun q hq => .inr ?_
    obtain ⟨e, he, heq⟩ := List.mem_map.mp hq
    obtain ⟨rfl, rfl⟩ := Prod.mk.inj heq
    have hget := Dict.get?_eq_some.mpr ((List.mem_insertionSort _).mp he)
    exact ⟨e.2, hget, le_rfl, fun _ => rfl⟩
  | takeRound t after =>
    simp only [SkipState.step] at hs
    split at hs
    · rename_i queues htake
      obtain rfl := Option.some.inj hs
      refine hi.setTake fun q hq => .inl ?_
      rw [htake]
      exact mem_roundFrom hq
    · cases hs
  | takeNext t =>
    simp only [SkipState.step] at hs
    split at hs
    · obtain rfl := Option.some.inj hs
      exact hi.setTake fun q hq => by cases hq
    · rename_i w' queued version rest taken htake
      have htail : ∀ {taken' : List ι} (q : List ι × ℕ),
          (w, q) ∈ (SkipTake.taking rest taken').queues → (w, q) ∈ (s.takes t).queues := by
        intro taken' q hq
        rw [htake]
        exact List.mem_cons_of_mem _ hq
      split_ifs at hs with hroom hempty
      · obtain rfl := Option.some.inj hs
        exact hi.setTake fun q hq => by cases hq
      · obtain rfl := Option.some.inj hs
        exact hi.setTake fun q hq => .inl (htail q hq)
      · split at hs
        · obtain rfl := Option.some.inj hs
          exact hi.setTake fun q hq => .inl (htail q hq)
        · rename_i r hr
          split_ifs at hs with hv
          · obtain rfl := Option.some.inj hs
            subst hv
            have hmem : (w', queued, r.version) ∈ (s.takes t).queues := by
              rw [htake]
              exact List.mem_cons_self
            exact (hi.takeWrite hmem hr).setTake fun q hq => .inl (htail q hq)
          · obtain rfl := Option.some.inj hs
            exact hi.setTake fun q hq => .inl (htail q hq)
    · cases hs
  | visit v w' =>
    obtain ⟨-, hs⟩ := Option.ite_none_right_eq_some.mp hs
    obtain rfl := Option.some.inj hs
    exact hi.setVisit _
  | storeScan v place =>
    simp only [SkipState.step] at hs
    split at hs
    · rename_i w' stored hvisit
      split_ifs at hs with hsame hfound hrest
      · exact Option.some.inj hs ▸ hi
      · obtain ⟨r, hr, rfl⟩ := Option.map_eq_some_iff.mp hs
        exact (hi.stored place hr).setVisit _
      · obtain rfl := Option.some.inj hs
        exact hi.setVisit _
      · obtain rfl := Option.some.inj hs
        exact hi.setVisit _
    · cases hs
  | createScan v =>
    simp only [SkipState.step] at hs
    split at hs
    · rename_i w' place hvisit
      split_ifs at hs with hrow
      · obtain rfl := Option.some.inj hs
        exact hi.setVisit _
      · obtain rfl := Option.some.inj hs
        exact (hi.created place (by simpa using hrow)).setVisit _
    · cases hs
  | leave v =>
    obtain rfl := Option.some.inj hs
    exact hi.setVisit _
  | complete w' =>
    obtain rfl := Option.some.inj hs
    have hget : (s.scans.erase w').get? w = s.scans.get? w := by
      rw [Dict.get?_erase, if_neg fun h => hx (congrArg SkipAction.complete h.symm)]
    exact hi.keep (queue_congr hget) rfl rfl rfl (.of_eq hget) (fun _ _ h => .inl h)
      fun _ _ h => .inl h

/-- The ids a take has are the ones it got. -/
def Got (s : SkipState W ι) : Prop := ∀ t, (s.takes t).ids = takenBy t s.moves

omit [LinearOrder W] [LinearOrder ι] in
theorem takenBy_puts (l : List (Move ℕ (W × ι))) (ks : List ι) :
    takenBy t (l ++ ks.map fun k => .put a (w, k)) = takenBy t l := by
  unfold takenBy
  rw [List.filterMap_append, List.filterMap_map]
  simp

omit [LinearOrder W] [LinearOrder ι] in
theorem takenBy_takes {u : ℕ} (l : List (Move ℕ (W × ι))) (ks : List ι) :
    takenBy t (l ++ ks.map fun k => .took u (w, k)) =
      takenBy t l ++ if u = t then ks else [] := by
  unfold takenBy
  rw [List.filterMap_append, List.filterMap_map]
  by_cases hu : u = t
  · subst hu
    rw [if_pos rfl, List.append_cancel_left_eq]
    induction ks with
    | nil => rfl
    | cons k ks ih => simp
  · simp [hu]

omit [LinearOrder W] [LinearOrder ι] in
theorem Got.setTake (h : s.Got) {x : SkipTake W ι} (hx : x.ids = (s.takes t).ids) :
    (s.setTake t x).Got := by
  intro u
  by_cases hu : u = t
  · subst hu
    rw [show (s.setTake u x).takes u = x from Function.update_self .., hx]
    exact h u
  · rw [show (s.setTake t x).takes u = s.takes u from Function.update_of_ne hu ..]
    exact h u

omit [LinearOrder ι] in
theorem Got.takeDone (h : s.Got) {take taken : List ι} {r : WorkflowScan ι}
    {rest : List (W × List ι × ℕ)} (hx : taken = (s.takes t).ids) :
    ((s.takeDone t w take r).setTake t (.taking rest (taken ++ take))).Got := by
  intro u
  change _ = takenBy u (s.moves ++ take.map fun id => .took t (w, id))
  rw [takenBy_takes]
  by_cases hu : u = t
  · subst hu
    rw [show ((s.takeDone u w take r).setTake u (.taking rest (taken ++ take))).takes u =
      .taking rest (taken ++ take) from Function.update_self .., if_pos rfl, ← h u, ← hx]
    rfl
  · rw [show ((s.takeDone t w take r).setTake t (.taking rest (taken ++ take))).takes u =
      s.takes u from Function.update_of_ne hu .., if_neg (Ne.symm hu), List.append_nil]
    exact h u

theorem Got.step (h : s.Got) {x : SkipAction W ι} (hs : s.step x = some s') : s'.Got := by
  cases x with
  | queueSkipped a nodes ids =>
    obtain ⟨-, hs⟩ := Option.ite_none_right_eq_some.mp hs
    exact Option.some.inj hs ▸ h
  | addNext a =>
    simp only [SkipState.step] at hs
    split at hs
    · exact Option.some.inj hs ▸ h
    · cases hs
  | addRead a =>
    simp only [SkipState.step] at hs
    split at hs
    · exact Option.some.inj hs ▸ h
    · cases hs
  | addWrite a =>
    simp only [SkipState.step] at hs
    split at hs
    · split at hs
      · obtain rfl := Option.some.inj hs
        exact fun t => (h t).trans (takenBy_puts _ _).symm
      · exact Option.some.inj hs ▸ h
    · cases hs
  | addGiveUp a =>
    simp only [SkipState.step] at hs
    split at hs
    · exact Option.some.inj hs ▸ h
    · cases hs
  | takeRead t =>
    obtain ⟨hidle, hs⟩ := Option.ite_none_right_eq_some.mp hs
    obtain rfl := Option.some.inj hs
    exact h.setTake (by rw [hidle]; rfl)
  | takeRound t after =>
    simp only [SkipState.step] at hs
    split at hs
    · rename_i queues htake
      obtain rfl := Option.some.inj hs
      exact h.setTake (by rw [htake]; rfl)
    · cases hs
  | takeNext t =>
    simp only [SkipState.step] at hs
    split at hs
    · rename_i taken htake
      obtain rfl := Option.some.inj hs
      exact h.setTake (by rw [htake]; rfl)
    · rename_i w' queued version rest taken htake
      have hids : (s.takes t).ids = taken := by rw [htake]; rfl
      split_ifs at hs with hroom hempty
      · obtain rfl := Option.some.inj hs
        exact h.setTake hids.symm
      · obtain rfl := Option.some.inj hs
        exact h.setTake hids.symm
      · split at hs
        · obtain rfl := Option.some.inj hs
          exact h.setTake hids.symm
        · split_ifs at hs with hv
          · obtain rfl := Option.some.inj hs
            exact h.takeDone hids.symm
          · obtain rfl := Option.some.inj hs
            exact h.setTake hids.symm
    · cases hs
  | visit v w' =>
    obtain ⟨-, hs⟩ := Option.ite_none_right_eq_some.mp hs
    exact Option.some.inj hs ▸ h
  | storeScan v place =>
    simp only [SkipState.step] at hs
    split at hs
    · split_ifs at hs
      · exact Option.some.inj hs ▸ h
      · obtain ⟨r, -, rfl⟩ := Option.map_eq_some_iff.mp hs
        exact h
      · exact Option.some.inj hs ▸ h
      · exact Option.some.inj hs ▸ h
    · cases hs
  | createScan v =>
    simp only [SkipState.step] at hs
    split at hs
    · split_ifs at hs
      · exact Option.some.inj hs ▸ h
      · exact Option.some.inj hs ▸ h
    · cases hs
  | leave v => exact Option.some.inj hs ▸ h
  | complete w' => exact Option.some.inj hs ▸ h

omit [LinearOrder ι] in
theorem queue_setScan {r : WorkflowScan ι} (hr : r.skipped = s.queue w') (w : W) :
    (s.setScan w' r).queue w = s.queue w := by
  by_cases hw : w = w'
  · subst hw
    rw [queue_of_get? (r := r) (by rw [get?_setScan, if_pos rfl]), hr]
  · exact queue_congr (by rw [get?_setScan, if_neg hw])

/-- A visit that stores its place moves no id. -/
theorem storesPlace_queue {x : SkipAction W ι} (hx : x.storesPlace = true)
    (hs : s.step x = some s') : s'.moves = s.moves ∧ ∀ w, s'.queue w = s.queue w := by
  cases x with
  | storeScan v place =>
    simp only [SkipState.step] at hs
    split at hs
    · rename_i w' stored hvisit
      split_ifs at hs
      · obtain rfl := Option.some.inj hs
        exact ⟨rfl, fun _ => rfl⟩
      · obtain ⟨r, hr, rfl⟩ := Option.map_eq_some_iff.mp hs
        exact ⟨rfl, queue_setScan (queue_of_get? hr).symm⟩
      · obtain rfl := Option.some.inj hs
        exact ⟨rfl, fun _ => rfl⟩
      · obtain rfl := Option.some.inj hs
        exact ⟨rfl, fun _ => rfl⟩
    · cases hs
  | createScan v =>
    simp only [SkipState.step] at hs
    split at hs
    · rename_i w' place hvisit
      split_ifs at hs with hrow
      · obtain rfl := Option.some.inj hs
        exact ⟨rfl, fun _ => rfl⟩
      · obtain rfl := Option.some.inj hs
        have hget : s.scans.get? w' = none := by simpa using hrow
        exact ⟨rfl, queue_setScan (by simp [queue, hget])⟩
    · cases hs
  | _ => cases hx

/-- What a call of `queue_skipped` has still to add. -/
def toAdd : SkipAdd W ι → List (W × List ι)
  | .idle => []
  | .calling rest => rest
  | .trying w ids _ rest | .merging w ids _ rest _ => (w, ids) :: rest

/-- What an add was given: what it is done with, and then what it has still to add. -/
def given (s : SkipState W ι) (a : ℕ) : List (W × List ι) :=
  (s.finished.filter (·.1 = a)).map Prod.snd ++ toAdd (s.adds a)

/-- An add is given nothing by the step, and has begun no later than before it. -/
structure GivesNone (s s' : SkipState W ι) (a : ℕ) : Prop where
  given : s'.given a = s.given a
  idle : s'.adds a = .idle → s.adds a = .idle

omit [LinearOrder W] [LinearOrder ι] in
theorem GivesNone.of_eq (hadds : s'.adds = s.adds) (hf : s'.finished = s.finished) :
    GivesNone s s' a := by
  constructor
  · unfold SkipState.given
    rw [hadds, hf]
  · rw [hadds]
    exact id

omit [LinearOrder W] [LinearOrder ι] in
/-- An add that moves on from one workflow's ids to the next. -/
theorem givesNone_finish {b : ℕ} {ids : List ι} {rest : List (W × List ι)}
    (hf : s'.finished = s.finished ++ [(b, w, ids)]) (hadds : ∀ c, c ≠ b → s'.adds c = s.adds c)
    (hb : s'.adds b = .calling rest) (hbefore : toAdd (s.adds b) = (w, ids) :: rest) :
    GivesNone s s' a := by
  by_cases hab : a = b
  · subst hab
    constructor
    · unfold given
      rw [hf, hb, hbefore]
      simp [toAdd]
    · rw [hb]
      exact nofun
  · constructor
    · unfold given
      rw [hf, hadds a hab]
      simp [Ne.symm hab]
    · rw [hadds a hab]
      exact id

omit [LinearOrder W] [LinearOrder ι] in
/-- An add that stays at the same workflow's ids. -/
theorem givesNone_setAdd {b : ℕ} {x : SkipAdd W ι} (hx : toAdd x = toAdd (s.adds b))
    (hbegun : x ≠ .idle) : GivesNone s (s.setAdd b x) a := by
  by_cases hab : a = b
  · subst hab
    have hadd : (s.setAdd a x).adds a = x := Function.update_self ..
    constructor
    · unfold given
      rw [hadd, hx]
      rfl
    · exact fun hidle => absurd (hadd.symm.trans hidle) hbegun
  · have hadd : (s.setAdd b x).adds a = s.adds a := Function.update_of_ne hab ..
    constructor
    · unfold given
      rw [hadd]
      rfl
    · rw [hadd]
      exact id

/-- An add is given the ids of its call, and nothing else. -/
theorem given_step {x : SkipAction W ι} (hs : s.step x = some s') (a : ℕ) :
    GivesNone s s' a ∨ ∃ nodes ids, x = .queueSkipped a nodes ids ∧ s.adds a = .idle ∧
      s'.adds a ≠ .idle ∧ s'.given a = s.given a ++ skipAdds nodes ids := by
  cases x with
  | queueSkipped b nodes ids =>
    obtain ⟨hidle, hs⟩ := Option.ite_none_right_eq_some.mp hs
    obtain rfl := Option.some.inj hs
    by_cases hab : a = b
    · subst hab
      have hadd : (s.setAdd a (.calling (skipAdds nodes ids))).adds a =
          .calling (skipAdds nodes ids) := Function.update_self ..
      refine .inr ⟨nodes, ids, rfl, hidle, by rw [hadd]; simp, ?_⟩
      unfold given
      rw [hadd, hidle]
      simp [toAdd, setAdd]
    · have hadd : (s.setAdd b (.calling (skipAdds nodes ids))).adds a = s.adds a :=
        Function.update_of_ne hab ..
      left
      constructor
      · unfold given
        rw [hadd]
        rfl
      · rw [hadd]
        exact id
  | addNext b =>
    left
    simp only [SkipState.step] at hs
    split at hs
    · next w ids rest hadd =>
      obtain rfl := Option.some.inj hs
      exact givesNone_setAdd (by rw [hadd]; rfl) (by simp)
    · cases hs
  | addRead b =>
    left
    simp only [SkipState.step] at hs
    split at hs
    · next w ids left rest hadd =>
      obtain rfl := Option.some.inj hs
      exact givesNone_setAdd (by rw [hadd]; rfl) (by simp)
    · cases hs
  | addWrite b =>
    left
    simp only [SkipState.step] at hs
    split at hs
    · next w ids left rest row hadd =>
      split at hs
      · obtain rfl := Option.some.inj hs
        exact givesNone_finish rfl (fun c hc => Function.update_of_ne hc _ _)
          (Function.update_self _ _ _) (by rw [hadd]; rfl)
      · obtain rfl := Option.some.inj hs
        exact givesNone_setAdd (by rw [hadd]; rfl) (by simp)
    · cases hs
  | addGiveUp b =>
    left
    simp only [SkipState.step] at hs
    split at hs
    · next w ids rest hadd =>
      obtain rfl := Option.some.inj hs
      exact givesNone_finish rfl (fun c hc => Function.update_of_ne hc _ _)
        (Function.update_self _ _ _) (by rw [hadd]; rfl)
    · cases hs
  | storeScan v place =>
    left
    simp only [SkipState.step] at hs
    split at hs
    · split_ifs at hs
      · obtain rfl := Option.some.inj hs
        exact .of_eq rfl rfl
      · obtain ⟨r, -, rfl⟩ := Option.map_eq_some_iff.mp hs
        exact .of_eq rfl rfl
      · obtain rfl := Option.some.inj hs
        exact .of_eq rfl rfl
      · obtain rfl := Option.some.inj hs
        exact .of_eq rfl rfl
    · cases hs
  | takeRead _ | takeRound _ _ | takeNext _ | visit _ _ | createScan _ | leave _ | complete _ =>
    left
    simp only [SkipState.step] at hs
    repeat' split at hs
    all_goals cases hs
    all_goals exact .of_eq rfl rfl

/-- An add that has not begun was given nothing. -/
theorem given_of_idle (h : (skipQueues W ι).Reachable s) (hidle : s.adds a = .idle) :
    s.given a = [] := by
  refine h.invariant (fun s => s.adds a = .idle → s.given a = []) ?_ ?_ hidle
  · rintro s rfl -
    rfl
  · intro s x s' hi hs hidle'
    rcases given_step hs a with hnone | ⟨_, _, -, -, hbegun, -⟩
    · exact hnone.given.trans (hi (hnone.idle hidle'))
    · exact absurd hidle' hbegun

/-- Where the ids of a workflow's skip queue are. -/
structure SkipsConserved (s : SkipState W ι) (w : W) : Prop where
  nodup : (s.queue w).Nodup
  bounded : (s.queue w).length ≤ skipQueueLimit
  queued : ∀ id ∈ s.queue w, ∃ a, Move.put a (w, id) ∈ s.moves
  /-- Of the ids an add was given it left each in the queue or logged that it did not. -/
  given : ∀ a ids, (a, w, ids) ∈ s.finished → ∀ id ∈ ids,
    Move.put a (w, id) ∈ s.moves ∨ ∃ why, (a, w, id, why) ∈ s.dropped
  /-- An id left in the queue, and not added again since, is there or with one taker. -/
  since : ∀ l₁ a id l₂, s.moves = l₁ ++ .put a (w, id) :: l₂ → Move.givers (w, id) l₂ = [] →
    (id ∈ s.queue w ∧ Move.takers (w, id) l₂ = []) ∨
      id ∉ s.queue w ∧ ∃ t, Move.takers (w, id) l₂ = [t]
  /-- An id that was taken twice was added in between. -/
  once : ∀ l₁ t l₂ t' l₃ id, s.moves = l₁ ++ .took t (w, id) :: l₂ ++ .took t' (w, id) :: l₃ →
    ∃ a, Move.put a (w, id) ∈ l₂

theorem SkipInv.conserved (hi : s.SkipInv w) : s.SkipsConserved w where
  nodup := hi.nodup
  bounded := hi.bounded
  queued id hid := by
    by_contra hno
    have hgivers : Move.givers (w, id) s.moves = [] :=
      List.eq_nil_iff_forall_not_mem.mpr fun a ha => hno ⟨a, Move.mem_givers.mp ha⟩
    have hgone := Move.held_of_no_givers hgivers Move.held_nil
    rw [List.nil_append, (hi.held id).mpr hid] at hgone
    cases hgone
  given := hi.accounted
  since l₁ a id l₂ heq hno := by
    have hlawful := hi.lawful id
    rw [heq] at hlawful
    rw [← hi.held id, heq, Bool.not_eq_true]
    exact hlawful.since hno
  once l₁ t l₂ t' l₃ id heq := by
    have hlawful := hi.lawful id
    rw [heq] at hlawful
    exact hlawful.put_between

theorem skipInv_init (h : (skipQueues W ι).init s) : s.SkipInv w := by
  obtain rfl := h
  exact {
    nodup := List.nodup_nil
    bounded := Nat.zero_le _
    held := fun id => by simp [queue]
    lawful := fun id => Move.lawful_nil
    accounted := fun a ids h => by cases h
    merging := fun a x hx => by cases hx
    taking := fun t q hq => by cases hq }

/-- In every run in which the workflow is not complete, its skip queue loses no id and gives none
twice, each take returns what it got, and each add is given the ids of its one call, until it is done
with them. -/
theorem skip_queue_conserves (w : W)
    (h : (skipQueues W ι).ReachesBy (fun _ x => x ≠ .complete w) s) :
    s.SkipsConserved w ∧ (∀ t, (s.takes t).ids = takenBy t s.moves) ∧
      (∀ x s', s.step x = some s' → ∀ a, s'.given a = s.given a ∨
        ∃ nodes ids, x = .queueSkipped a nodes ids ∧ s.given a = [] ∧
          s'.given a = skipAdds nodes ids) ∧
      ∀ x s', x.storesPlace = true → s.step x = some s' →
        s'.moves = s.moves ∧ ∀ w, s'.queue w = s.queue w := by
  have hinv : s.SkipInv w := h.invariant (fun s => s.SkipInv w) (fun _ => skipInv_init)
    fun _ _ _ hi hx hs => hi.step hx hs
  have hgot : s.Got := h.reachable.invariant Got (fun s hs => by obtain rfl := hs; exact fun _ => rfl)
    fun _ _ _ hg hs => hg.step hs
  refine ⟨hinv.conserved, hgot, fun x s' hs a => ?_, fun x s' hx hs => storesPlace_queue hx hs⟩
  rcases given_step hs a with hnone | ⟨nodes, ids, hx, hidle, -, hgiven⟩
  · exact .inl hnone.given
  · have hnil := given_of_idle h.reachable hidle
    rw [hnil] at hgiven
    exact .inr ⟨nodes, ids, hx, hnil, hgiven⟩

/-- Two releases add to one queue while a visit stores its place; the second add has to try again. -/
def twoAdds : List (SkipAction ℕ ℕ) :=
  [.queueSkipped 0 [(7, 1), (7, 2)] [2, 1], .queueSkipped 1 [(7, 2), (7, 3)] [2, 3, 4], .addNext 0,
    .addNext 1, .addRead 0, .addRead 1, .addWrite 0, .visit 0 7, .addWrite 1, .addRead 1,
    .storeScan 0 ⟨.edges, 5, some 9, some 9⟩, .addWrite 1, .addRead 1, .addWrite 1, .takeRead 0,
    .takeRound 0 (some 7), .takeNext 0]

/-- A third add loses each of its tries to a visit that moves on, and is given up. -/
def thirdAdd : List (SkipAction ℕ ℕ) :=
  [.queueSkipped 2 [(7, 5)] [5], .addNext 2] ++
    (List.range skipQueueAttempts).flatMap (fun n =>
      [.addRead 2, .storeScan 0 ⟨.edges, 6 + n, some 9, some 9⟩, .addWrite 2]) ++ [.addGiveUp 2]

theorem skip_queue_conserves_thirdAdd :
    ∃ s, (skipQueues ℕ ℕ).run ⟨.empty, fun _ => .idle, fun _ => .idle, fun _ => .idle, [], [], []⟩
        (twoAdds ++ thirdAdd) = some s ∧ s.SkipsConserved 7 ∧ takenBy 0 s.moves = [1, 2, 3] ∧
      s.given 2 = [(7, [5])] ∧ s.dropped = [(2, 7, 5, .unqueued)] := by
  have hrun : ((skipQueues ℕ ℕ).run
      ⟨.empty, fun _ => .idle, fun _ => .idle, fun _ => .idle, [], [], []⟩
        (twoAdds ++ thirdAdd)).map (fun s => decide ((s.takes 0).ids = [1, 2, 3] ∧
          s.given 2 = [(7, [5])] ∧ s.dropped = [(2, 7, 5, .unqueued)])) = some true := by
    decide +kernel
  obtain ⟨s, hs, hfacts⟩ := Option.map_eq_some_iff.mp hrun
  obtain ⟨hids, hgiven, hdropped⟩ := of_decide_eq_true hfacts
  have hopen : ∀ s : SkipState ℕ ℕ, ∀ x ∈ twoAdds ++ thirdAdd, x ≠ .complete 7 := by
    rintro - x hx rfl
    revert hx
    decide
  have hreach := (System.ReachesBy.init rfl).run_of_forall hopen hs
  obtain ⟨hconserved, hgot, -⟩ := skip_queue_conserves 7 hreach
  exact ⟨s, hs, hconserved, (hgot 0).symm.trans hids, hgiven, hdropped⟩

end SkipState

end DjangoOx
