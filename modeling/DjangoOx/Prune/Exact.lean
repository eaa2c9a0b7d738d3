import DjangoOx.Prune.Ticks
import Mathlib.Data.List.Count

/-! A pass of `ox_prune` over a tick log nobody else writes to: what it deletes, keeps and counts,
with and without writing. -/
namespace DjangoOx

variable {κ : Type} [LinearOrder κ]

/-- The walk of `_newest_readable`: a window of the ticks, newest first, and then the next. -/
def newestReadableFrom (col : KeyColumn κ) (log : List (StoredTick κ)) (name : κ) (batchSize : ℕ) :
    ℕ → ℕ → ℕ → TickTally κ → Option ℕ × TickTally κ
  | 0, _, _, tally => (none, tally)
  | fuel + 1, offset, size, tally =>
    let rows := ((col.newestFirst log name).drop offset).take size
    match firstReadable rows tally with
    | (some pk, tally) => (some pk, tally)
    | (none, tally) =>
      if rows.length < size then (none, tally)
      else newestReadableFrom col log name batchSize fuel (offset + rows.length) batchSize tally

/-- The primary key of a key's newest tick that reads. -/
def newestReadable (col : KeyColumn κ) (log : List (StoredTick κ)) (name : κ) (batchSize : ℕ)
    (tally : TickTally κ) : Option ℕ × TickTally κ :=
  newestReadableFrom col log name batchSize (log.length + 1) 0 1 tally

/-- One row of the slow read of the keys. -/
def readKey (col : KeyColumn κ) (found : List κ × TickTally κ) (row : StoredTick κ) :
    List κ × TickTally κ :=
  if row.unreadable ∧ row.key col = col.empty then (found.1, found.2.keep row)
  else (if row.key col ∈ found.1 then found.1 else found.1 ++ [row.key col], found.2)

def readKeysFrom (col : KeyColumn κ) (log : List (StoredTick κ)) (batchSize : ℕ) :
    ℕ → Option ℕ → List κ × TickTally κ → List κ × TickTally κ
  | 0, _, found => found
  | fuel + 1, after, found =>
    let rows := Machine.page (·.pk) log after batchSize
    let found := rows.foldl (readKey col) found
    if rows.length < batchSize then found
    else readKeysFrom col log batchSize fuel (rows.getLast?.map (·.pk)) found

/-- Every schedule key the log holds. The one statement fails on text that does not decode. -/
def scheduleKeys (col : KeyColumn κ) (log : List (StoredTick κ)) (batchSize : ℕ)
    (tally : TickTally κ) : List κ × TickTally κ :=
  if log.any fun row => row.scheduleName = .undecodable then
    readKeysFrom col log batchSize (log.length + 1) none ([], tally)
  else (col.distinctKeys log, tally)

/-- What a pass carries from row to row. -/
structure PruneState (κ : Type) where
  anchors : κ → Option ℕ
  protectedPks : List ℕ
  unanchored : List κ
  tally : TickTally κ

namespace PruneState

/-- The tick kept for a key, looked up before the paging. -/
def anchor (col : KeyColumn κ) (log : List (StoredTick κ)) (batchSize : ℕ) (s : PruneState κ)
    (name : κ) : PruneState κ :=
  match newestReadable col log name batchSize s.tally with
  | (none, tally) => { s with tally }
  | (some pk, tally) =>
    { s with
      anchors := Function.update s.anchors name (some pk)
      protectedPks := s.protectedPks ++ [pk]
      tally }

/-- The tick kept for a key met in a batch. -/
def lookup (col : KeyColumn κ) (log : List (StoredTick κ)) (batchSize : ℕ) (s : PruneState κ)
    (name : κ) : PruneState κ :=
  match newestReadable col log name batchSize s.tally with
  | (none, tally) => { s with unanchored := s.unanchored ++ [name], tally }
  | (some pk, tally) =>
    { s with
      anchors := Function.update s.anchors name (some pk)
      protectedPks := s.protectedPks ++ [pk]
      tally }

def countAnchors (s : PruneState κ) (n : ℕ) : PruneState κ :=
  { s with tally := { s.tally with anchors := s.tally.anchors + n } }

/-- One row of a page. -/
def sortRow (col : KeyColumn κ) (log : List (StoredTick κ)) (batchSize : ℕ)
    (p : PruneState κ × List (StoredTick κ)) (row : StoredTick κ) :
    PruneState κ × List (StoredTick κ) :=
  if row.unreadable then ({ p.1 with tally := p.1.tally.keep row }, p.2)
  else
    let s := if p.1.anchors (row.key col) = none ∧ row.key col ∉ p.1.unanchored then
      p.1.lookup col log batchSize (row.key col) else p.1
    if row.pk ∈ s.protectedPks then (s.countAnchors 1, p.2) else (s, p.2 ++ [row])

end PruneState

/-- A page's rows that are to go, after the two checks. -/
def doomedRows (col : KeyColumn κ) (log : List (StoredTick κ)) (batchSize : ℕ) (s : PruneState κ)
    (rows : List (StoredTick κ)) : PruneState κ × List ℕ :=
  let (s, old) := rows.foldl (PruneState.sortRow col log batchSize) (s, [])
  let older := olderThanTheirAnchor col log old s.anchors
  let newestNow := newestOfTheirSchedules col log ((old.filter fun row => row.pk ∉ older).map (·.pk))
  (s.countAnchors newestNow.length, (old.filter fun row => row.pk ∉ newestNow).map (·.pk))

/-- What a pass leaves: the log, its state, the keys it chose to delete and the pages it read. -/
structure Pruned (κ : Type) where
  log : List (StoredTick κ)
  state : PruneState κ
  doomed : List ℕ
  pages : List (List (StoredTick κ))

/-- The `DELETE`, or in a dry run the count of what it would take. -/
def deleteOrCount (write : Bool) (log : List (StoredTick κ)) (doomed : List ℕ) :
    List (StoredTick κ) × ℕ :=
  if doomed = [] then (log, 0)
  else if write then deleteTicks log doomed
  else (log, doomed.length)

/-- One page: its rows sorted, checked and deleted. -/
def prunePage (col : KeyColumn κ) (batchSize : ℕ) (write : Bool) (p : Pruned κ)
    (rows : List (StoredTick κ)) : Pruned κ :=
  let (s, doomed) := doomedRows col p.log batchSize p.state rows
  let (log, gone) := deleteOrCount write p.log doomed
  { log
    state := { s with tally := { s.tally with deleted := s.tally.deleted + gone } }
    doomed := p.doomed ++ doomed
    pages := p.pages ++ [rows] }

def prunePages (col : KeyColumn κ) (cutoff : ℤ) (batchSize : ℕ) (write : Bool) :
    ℕ → Option ℕ → Pruned κ → Pruned κ
  | 0, _, p => p
  | fuel + 1, after, p =>
    let rows := selectedPage p.log cutoff after batchSize
    if rows = [] then p
    else
      let next := prunePage col batchSize write p rows
      if rows.length < batchSize then next
      else prunePages col cutoff batchSize write fuel (rows.getLast?.map (·.pk)) next

/-- `_prune_ticks`, with a tally of its own. -/
def pruneTicks (col : KeyColumn κ) (log : List (StoredTick κ)) (cutoff : ℤ) (batchSize : ℕ)
    (write : Bool) : Pruned κ :=
  let (keys, tally) := scheduleKeys col log batchSize ⟨0, 0, []⟩
  let s := keys.foldl (PruneState.anchor col log batchSize) ⟨fun _ => none, [], [], tally⟩
  prunePages col cutoff batchSize write (log.length + 1) none ⟨log, s, [], []⟩

section Tally

variable {log rows rows' : List (StoredTick κ)} {t t' : TickTally κ} {row : StoredTick κ} {pk : ℕ}

/-- Every row counted as unreadable is one, once. -/
structure TickTally.Sound (log : List (StoredTick κ)) (t : TickTally κ) : Prop where
  pks : (t.unreadable.map (·.pk)).Nodup
  rows : ∀ r ∈ t.unreadable, r ∈ log ∧ r.unreadable

/-- Only rows that cannot be read are added. -/
structure TickTally.Grows (log : List (StoredTick κ)) (t t' : TickTally κ) : Prop where
  deleted : t'.deleted = t.deleted
  anchors : t'.anchors = t.anchors
  unreadable : t.unreadable ⊆ t'.unreadable
  sound : t.Sound log → t'.Sound log

omit [LinearOrder κ] in
theorem TickTally.Grows.refl : t.Grows log t :=
  ⟨rfl, rfl, fun _ h => h, fun h => h⟩

omit [LinearOrder κ] in
theorem TickTally.Grows.trans {u : TickTally κ} (h : t.Grows log t') (h' : t'.Grows log u) :
    t.Grows log u where
  deleted := h'.deleted.trans h.deleted
  anchors := h'.anchors.trans h.anchors
  unreadable _ hr := h'.unreadable (h.unreadable hr)
  sound hs := h'.sound (h.sound hs)

omit [LinearOrder κ] in
theorem TickTally.keep_grows (hrow : row ∈ log) (hu : row.unreadable) :
    t.Grows log (t.keep row) := by
  unfold TickTally.keep
  split_ifs with hmem
  · exact .refl
  · refine ⟨rfl, rfl, fun r hr => List.mem_append_left _ hr, fun hs => ⟨?_, ?_⟩⟩
    · simp only [List.map_append, List.map_cons, List.map_nil]
      refine List.nodup_append'.mpr ⟨hs.pks, List.nodup_singleton _, ?_⟩
      intro k hk hk'
      exact hmem (List.mem_singleton.mp hk' ▸ hk)
    · intro r hr
      rcases List.mem_append.mp hr with h | h
      · exact hs.rows r h
      · exact List.mem_singleton.mp h ▸ ⟨hrow, hu⟩

theorem TickTally.mem_keep {col : KeyColumn κ} (hk : TickKeys col log) (hs : t.Sound log)
    (hrow : row ∈ log) : row ∈ (t.keep row).unreadable := by
  unfold TickTally.keep
  split_ifs with hmem
  · obtain ⟨r, hr, hpk⟩ := List.mem_map.mp hmem
    have heq : r = row := hk.eq_of_pk (hs.rows r hr).1 hrow hpk
    exact heq ▸ hr
  · simp

omit [LinearOrder κ] in
theorem firstReadable_grows (hrows : ∀ r ∈ rows, r ∈ log) :
    t.Grows log (firstReadable rows t).2 := by
  induction rows generalizing t with
  | nil => exact .refl
  | cons row rows ih =>
    simp only [firstReadable]
    split_ifs with hu
    · have hkeep : t.Grows log (t.keep row) := TickTally.keep_grows (hrows row (by simp)) hu
      exact hkeep.trans (ih fun r hr => hrows r (by simp [hr]))
    · exact .refl

omit [LinearOrder κ] in
theorem firstReadable_append : firstReadable (rows ++ rows') t =
    match firstReadable rows t with
    | (some pk, t) => (some pk, t)
    | (none, t) => firstReadable rows' t := by
  induction rows generalizing t with
  | nil => rfl
  | cons row rows ih =>
    simp only [List.cons_append, firstReadable]
    split_ifs with hu
    · exact ih
    · rfl

omit [LinearOrder κ] in
theorem firstReadable_some (h : (firstReadable rows t).1 = some pk) :
    ∃ pre row post, rows = pre ++ row :: post ∧ row.pk = pk ∧ row.unreadable = false ∧
      ∀ x ∈ pre, x.unreadable := by
  induction rows generalizing t with
  | nil => cases h
  | cons row rows ih =>
    simp only [firstReadable] at h
    split_ifs at h with hu
    · obtain ⟨pre, r, post, rfl, hpk, hr, hpre⟩ := ih h
      refine ⟨row :: pre, r, post, rfl, hpk, hr, ?_⟩
      simpa [hu] using hpre
    · exact ⟨[], row, rows, rfl, Option.some.inj h, by simpa using hu, by simp⟩

omit [LinearOrder κ] in
theorem firstReadable_none (h : (firstReadable rows t).1 = none) : ∀ x ∈ rows, x.unreadable := by
  induction rows generalizing t with
  | nil => simp
  | cons row rows ih =>
    simp only [firstReadable] at h
    split_ifs at h with hu
    · simpa [hu] using ih h

omit [LinearOrder κ] in
/-- Rows that read and are not the first to read can be left out. -/
theorem firstReadable_filter (p : StoredTick κ → Bool)
    (hreads : ∀ x ∈ rows, p x = false → x.unreadable = false)
    (hfirst : ∀ pre x post, rows = pre ++ x :: post → x.unreadable = false →
      (∀ y ∈ pre, y.unreadable) → p x = true) :
    firstReadable (rows.filter p) t = firstReadable rows t := by
  induction rows generalizing t with
  | nil => rfl
  | cons row rows ih =>
    simp only [firstReadable]
    by_cases hu : row.unreadable
    · have hp : p row = true := by
        by_contra hp
        have := hreads row (by simp) (by simpa using hp)
        simp_all
      rw [List.filter_cons_of_pos hp, if_pos hu]
      simp only [firstReadable, hu, if_true]
      refine ih (fun x hx => hreads x (by simp [hx])) fun pre x post heq hx hpre => ?_
      exact hfirst (row :: pre) x post (by simp [heq]) hx (by simpa [hu] using hpre)
    · have hp : p row = true := hfirst [] row rows rfl (by simpa using hu) (by simp)
      rw [List.filter_cons_of_pos hp, if_neg hu]
      simp [firstReadable, hu]

end Tally

section Newest

variable {col : KeyColumn κ} {log : List (StoredTick κ)} {name : κ} {batchSize : ℕ}
  {t : TickTally κ} {row x : StoredTick κ}

/-- Windows of any size walk the ticks of a key one after the other. -/
theorem newestReadableFrom_eq (hb : 0 < batchSize) {fuel offset size : ℕ} (hsize : 0 < size)
    (hfuel : (col.newestFirst log name).length < offset + fuel) :
    newestReadableFrom col log name batchSize fuel offset size t =
      firstReadable ((col.newestFirst log name).drop offset) t := by
  induction fuel generalizing offset size t with
  | zero =>
    rw [List.drop_of_length_le (by omega)]
    rfl
  | succ fuel ih =>
    set l := col.newestFirst log name with hl
    have hsplit : l.drop offset = (l.drop offset).take size ++ l.drop (offset + size) := by
      rw [← List.drop_drop, List.take_append_drop]
    rw [hsplit, firstReadable_append]
    simp only [newestReadableFrom, ← hl]
    cases hf : firstReadable ((l.drop offset).take size) t with
    | mk found tally =>
      cases found with
      | some pk => rfl
      | none =>
        have hlen : ((l.drop offset).take size).length = min size (l.length - offset) := by
          rw [List.length_take, List.length_drop]
        dsimp only
        split_ifs with hshort
        · rw [List.drop_of_length_le (by omega)]
          rfl
        · have hfull : ((l.drop offset).take size).length = size := by omega
          rw [hfull]
          exact ih hb (by omega)

theorem newestReadable_eq (hb : 0 < batchSize) :
    newestReadable col log name batchSize t = firstReadable (col.newestFirst log name) t := by
  unfold newestReadable
  rw [newestReadableFrom_eq hb Nat.one_pos, List.drop_zero]
  have hlen : (col.newestFirst log name).length = (log.filter (col.names name)).length :=
    List.length_insertionSort _ _
  have hle := List.length_filter_le (col.names name) log
  omega

/-- The first of a key's ticks to read has no newer one that reads. -/
theorem not_newer_of_first {pre post : List (StoredTick κ)}
    (heq : col.newestFirst log name = pre ++ x :: post) (hpre : ∀ y ∈ pre, y.unreadable) :
    ¬ NewerReadable col log x := by
  rintro ⟨r, hr, hreads, hsame, hlt⟩
  have hx : x ∈ col.newestFirst log name := by simp [heq]
  have hnames : col.names name r := by
    obtain ⟨k, hk, hc⟩ := KeyColumn.names_iff.mp (mem_newestFirst.mp hx).2
    obtain ⟨k', l, hk', hl, hc'⟩ := KeyColumn.same_iff.mp hsame
    have hkk : k' = k := by simpa using hk'.symm.trans hk
    exact KeyColumn.names_iff.mpr ⟨l, hl, (hc'.trans (hkk ▸ rfl)).trans hc⟩
  have hmem : r ∈ pre ++ x :: post := heq ▸ mem_newestFirst.mpr ⟨hr, hnames⟩
  have hsorted : (pre ++ x :: post).Pairwise fun a b => b.scheduledFor ≤ a.scheduledFor :=
    heq ▸ pairwise_newestFirst
  rcases List.mem_append.mp hmem with h | h
  · simp_all
  · rcases List.mem_cons.mp h with rfl | h
    · exact lt_irrefl _ hlt
    · have hle := List.rel_of_pairwise_cons (List.pairwise_append.mp hsorted).2.1 h
      omega

end Newest

/-- A log with some of its superseded ticks gone. -/
def Left (col : KeyColumn κ) (full log : List (StoredTick κ)) : Prop :=
  ∃ p : StoredTick κ → Bool, log = full.filter p ∧
    ∀ x ∈ full, p x = false → x.unreadable = false ∧ NewerReadable col full x

/-- What the paging of a log relies on between two rows. -/
structure PruneState.Ok (col : KeyColumn κ) (log : List (StoredTick κ)) (s : PruneState κ) :
    Prop where
  kept : ∀ name pk, s.anchors name = some pk → pk ∈ s.protectedPks ∧
    ∃ x ∈ log, x.pk = pk ∧ x.unreadable = false ∧ col.names name x
  newest : ∀ pk ∈ s.protectedPks, ∀ x ∈ log, x.pk = pk →
    x.unreadable = false ∧ ¬ NewerReadable col log x
  missing : ∀ name ∈ s.unanchored, ∀ r ∈ log, col.names name r → r.unreadable
  sound : s.tally.Sound log

section Sorting

variable {col : KeyColumn κ} {log full rows old : List (StoredTick κ)} {name : κ} {batchSize : ℕ}
  {t t' : TickTally κ} {s s' : PruneState κ} {row x : StoredTick κ} {pk : ℕ}

theorem Left.refl : Left col log log :=
  ⟨fun _ => true, (List.filter_true log).symm, fun _ _ h => Bool.noConfusion h⟩

/-- A log without some superseded ticks has the same newest ones, with the same ticks above them. -/
theorem Left.newestReadable (hl : Left col full log) (hk : TickKeys col full) (hb : 0 < batchSize) :
    newestReadable col log name batchSize t = newestReadable col full name batchSize t := by
  obtain ⟨p, rfl, hp⟩ := hl
  rw [newestReadable_eq hb, newestReadable_eq hb]
  have hcomm : (full.filter p).filter (col.names name) = (full.filter (col.names name)).filter p :=
    List.filter_comm ..
  have hsort : col.newestFirst (full.filter p) name = (col.newestFirst full name).filter p := by
    unfold KeyColumn.newestFirst
    rw [hcomm]
    refine Machine.insertionSort_filter (fun r : StoredTick κ => OrderDual.toDual r.scheduledFor) p fun a ha b hb hab => ?_
    obtain ⟨ha, hna⟩ := List.mem_filter.mp ha
    obtain ⟨hb, hnb⟩ := List.mem_filter.mp hb
    exact hk.instants a ha b hb (KeyColumn.same_of_names hna hnb) (OrderDual.toDual_inj.mp hab)
  rw [hsort]
  apply firstReadable_filter
  · intro x hx hpx
    exact (hp x (mem_newestFirst.mp hx).1 hpx).1
  · intro pre x post heq hx hpre
    by_contra hpx
    have hmem : x ∈ full := (mem_newestFirst.mp (heq ▸ by simp : x ∈ col.newestFirst full name)).1
    exact not_newer_of_first heq hpre (hp x hmem (by simpa using hpx)).2

theorem newestReadable_some (hb : 0 < batchSize)
    (h : newestReadable col log name batchSize t = (some pk, t')) :
    ∃ x ∈ log, x.pk = pk ∧ x.unreadable = false ∧ col.names name x ∧ ¬ NewerReadable col log x := by
  rw [newestReadable_eq hb] at h
  obtain ⟨pre, x, post, heq, hpk, hx, hpre⟩ := firstReadable_some (congrArg Prod.fst h)
  have hmem : x ∈ col.newestFirst log name := by simp [heq]
  obtain ⟨hlog, hnames⟩ := mem_newestFirst.mp hmem
  exact ⟨x, hlog, hpk, hx, hnames, not_newer_of_first heq hpre⟩

theorem newestReadable_none (hb : 0 < batchSize)
    (h : newestReadable col log name batchSize t = (none, t')) :
    ∀ r ∈ log, col.names name r → r.unreadable := by
  rw [newestReadable_eq hb] at h
  intro r hr hnames
  exact firstReadable_none (congrArg Prod.fst h) r (mem_newestFirst.mpr ⟨hr, hnames⟩)

theorem newestReadable_grows (hb : 0 < batchSize) {found : Option ℕ}
    (h : newestReadable col log name batchSize t = (found, t')) : t.Grows log t' := by
  rw [newestReadable_eq hb] at h
  have hgrows : t.Grows log (firstReadable (col.newestFirst log name) t).2 :=
    firstReadable_grows fun r hr => (mem_newestFirst.mp hr).1
  rwa [h] at hgrows

theorem PruneState.Ok.found (h : s.Ok col log) (hk : TickKeys col log) (hb : 0 < batchSize)
    (hn : DjangoOx.newestReadable col log name batchSize s.tally = (some pk, t')) :
    PruneState.Ok col log { s with
      anchors := Function.update s.anchors name (some pk)
      protectedPks := s.protectedPks ++ [pk]
      tally := t' } := by
  obtain ⟨x, hx, hpk, hreads, hnames, hnew⟩ := newestReadable_some hb hn
  constructor
  · intro name' pk' h'
    dsimp only at h'
    by_cases hname : name' = name
    · subst hname
      rw [Function.update_self] at h'
      obtain rfl := Option.some.inj h'
      exact ⟨by simp, x, hx, hpk, hreads, hnames⟩
    · rw [Function.update_of_ne hname] at h'
      obtain ⟨hp, hy⟩ := h.kept name' pk' h'
      exact ⟨List.mem_append_left _ hp, hy⟩
  · intro pk' hp y hy hypk
    rcases List.mem_append.mp hp with hp | hp
    · exact h.newest pk' hp y hy hypk
    · have heq : y = x := by
        apply hk.eq_of_pk hy hx
        rw [hypk, hpk, List.mem_singleton.mp hp]
      exact heq ▸ ⟨hreads, hnew⟩
  · exact h.missing
  · exact (newestReadable_grows hb hn).sound h.sound

theorem PruneState.Ok.grow (h : s.Ok col log) (hg : s.tally.Grows log t') :
    PruneState.Ok col log { s with tally := t' } :=
  ⟨h.kept, h.newest, h.missing, hg.sound h.sound⟩

theorem PruneState.Ok.count (h : s.Ok col log) (n : ℕ) : (s.countAnchors n).Ok col log :=
  ⟨h.kept, h.newest, h.missing, h.sound.pks, h.sound.rows⟩

theorem PruneState.Ok.anchor (name : κ) (h : s.Ok col log) (hk : TickKeys col log) (hb : 0 < batchSize) :
    (s.anchor col log batchSize name).Ok col log ∧
      s.tally.Grows log (s.anchor col log batchSize name).tally := by
  unfold PruneState.anchor
  split
  · next t' heq =>
    have hg := newestReadable_grows hb heq
    exact ⟨h.grow hg, hg⟩
  · next pk t' heq => exact ⟨h.found hk hb heq, newestReadable_grows hb heq⟩

theorem PruneState.Ok.lookup (h : s.Ok col log) (hk : TickKeys col log) (hb : 0 < batchSize)
    (hrow : row ∈ log) (hr : row.unreadable = false) :
    let s' := s.lookup col log batchSize (row.key col)
    s'.Ok col log ∧ s.tally.Grows log s'.tally ∧ s'.anchors (row.key col) ≠ none ∧
      ∀ name, s.anchors name ≠ none → s'.anchors name ≠ none := by
  dsimp only
  unfold PruneState.lookup
  split
  · next t' heq =>
    have hnames : col.names (row.key col) row := KeyColumn.names_key hr ▸ KeyColumn.same_refl hr
    have hu := newestReadable_none hb heq row hrow hnames
    rw [hr] at hu
    cases hu
  · next pk t' heq =>
    refine ⟨h.found hk hb heq, newestReadable_grows hb heq, by simp, fun name hname => ?_⟩
    by_cases hn : name = row.key col
    · simp [hn]
    · simpa [Function.update_of_ne hn] using hname

/-- What is kept for a row's schedule is its newest tick that reads. -/
theorem PruneState.Ok.mem_protected (h : s.Ok col log) (hk : TickKeys col log) (hrow : row ∈ log)
    (hr : row.unreadable = false) (hanchor : s.anchors (row.key col) ≠ none) :
    row.pk ∈ s.protectedPks ↔ ¬ NewerReadable col log row := by
  constructor
  · intro hp
    exact (h.newest _ hp row hrow rfl).2
  · intro hnew
    obtain ⟨pk, hpk⟩ := Option.ne_none_iff_exists'.mp hanchor
    obtain ⟨hp, x, hx, rfl, hxr, hnames⟩ := h.kept _ _ hpk
    rw [KeyColumn.names_key hr] at hnames
    have hle : ¬ row.scheduledFor < x.scheduledFor := fun hlt =>
      hnew ⟨x, hx, hxr, hnames, hlt⟩
    have hge : ¬ x.scheduledFor < row.scheduledFor := fun hlt =>
      (h.newest _ hp x hx rfl).2 ⟨row, hrow, hr, KeyColumn.same_symm hnames, hlt⟩
    have heq : row = x := hk.instants row hrow x hx hnames (by omega)
    exact heq ▸ hp

/-- What goes, once before the cutoff: a tick that reads under a newer one that does. -/
def Superseded (col : KeyColumn κ) (log : List (StoredTick κ)) (row : StoredTick κ) : Prop :=
  row.unreadable = false ∧ NewerReadable col log row

instance : DecidablePred (Superseded col log) := fun row =>
  inferInstanceAs (Decidable (row.unreadable = false ∧ _))

theorem PruneState.sortRow_left (hl : Left col full log) (hk : TickKeys col full)
    (hb : 0 < batchSize) :
    PruneState.sortRow col log batchSize = PruneState.sortRow col full batchSize := by
  funext p row
  unfold PruneState.sortRow PruneState.lookup
  simp only [hl.newestReadable hk hb]

/-- What a page adds to a state, for the rows sorted so far. -/
structure PageSorted (col : KeyColumn κ) (log : List (StoredTick κ)) (s : PruneState κ)
    (rows : List (StoredTick κ)) (p : PruneState κ × List (StoredTick κ)) : Prop where
  ok : p.1.Ok col log
  old : p.2 = rows.filter (Superseded col log ·)
  anchored : ∀ row ∈ rows, row.unreadable = false → p.1.anchors (row.key col) ≠ none
  stays : ∀ name, s.anchors name ≠ none → p.1.anchors name ≠ none
  deleted : p.1.tally.deleted = s.tally.deleted
  anchors : p.1.tally.anchors = s.tally.anchors +
    rows.countP fun row => ¬ row.unreadable ∧ ¬ Superseded col log row
  unreadable : s.tally.unreadable ⊆ p.1.tally.unreadable
  met : ∀ row ∈ rows, row.unreadable → row ∈ p.1.tally.unreadable

theorem PageSorted.step {p : PruneState κ × List (StoredTick κ)} (h : PageSorted col log s rows p)
    (hk : TickKeys col log) (hb : 0 < batchSize) (hrow : row ∈ log) :
    PageSorted col log s (rows ++ [row]) (PruneState.sortRow col log batchSize p row) := by
  unfold PruneState.sortRow
  by_cases hu : row.unreadable
  · rw [if_pos hu]
    have hkeep : p.1.tally.Grows log (p.1.tally.keep row) := TickTally.keep_grows hrow hu
    refine ⟨h.ok.grow hkeep, ?_, ?_, h.stays, h.deleted ▸ hkeep.deleted, ?_, ?_, ?_⟩
    · have hs : ¬ Superseded col log row := fun hs => by simp [hs.1] at hu
      simp [h.old, hs]
    · intro r hr hread
      rcases List.mem_append.mp hr with hr | hr
      · exact h.anchored r hr hread
      · rw [List.mem_singleton.mp hr, hu] at hread
        cases hread
    · simp [hkeep.anchors, h.anchors, hu]
    · exact fun r hr => hkeep.unreadable (h.unreadable hr)
    · intro r hr hread
      rcases List.mem_append.mp hr with hr | hr
      · exact hkeep.unreadable (h.met r hr hread)
      · rw [List.mem_singleton.mp hr]
        exact TickTally.mem_keep hk h.ok.sound hrow
  · have hr : row.unreadable = false := by simpa using hu
    rw [if_neg hu]
    -- The key of a row that reads has its tick by now, whether met before or just looked up.
    obtain ⟨s', hs', hok, hg, hanch, hstay⟩ : ∃ s', s' = (if p.1.anchors (row.key col) = none ∧
        row.key col ∉ p.1.unanchored then p.1.lookup col log batchSize (row.key col) else p.1) ∧
        s'.Ok col log ∧ p.1.tally.Grows log s'.tally ∧ s'.anchors (row.key col) ≠ none ∧
        ∀ name, p.1.anchors name ≠ none → s'.anchors name ≠ none := by
      refine ⟨_, rfl, ?_⟩
      split_ifs with hmeet
      · exact h.ok.lookup hk hb hrow hr
      · refine ⟨h.ok, .refl, fun hnone => ?_, fun _ hn => hn⟩
        have hmiss : row.key col ∈ p.1.unanchored := by
          by_contra hnot
          exact hmeet ⟨hnone, hnot⟩
        have hnames : col.names (row.key col) row := KeyColumn.names_key hr ▸ KeyColumn.same_refl hr
        exact hu (h.ok.missing _ hmiss row hrow hnames)
    dsimp only
    rw [← hs']
    have hmem := hok.mem_protected hk hrow hr hanch
    have hanchored : ∀ r ∈ rows ++ [row], r.unreadable = false → s'.anchors (r.key col) ≠ none := by
      intro r hmr hread
      rcases List.mem_append.mp hmr with hmr | hmr
      · exact hstay _ (h.anchored r hmr hread)
      · rwa [List.mem_singleton.mp hmr]
    have hmet : ∀ r ∈ rows ++ [row], r.unreadable → r ∈ s'.tally.unreadable := by
      intro r hmr hread
      rcases List.mem_append.mp hmr with hmr | hmr
      · exact hg.unreadable (h.met r hmr hread)
      · rw [List.mem_singleton.mp hmr, hr] at hread
        cases hread
    by_cases hp : row.pk ∈ s'.protectedPks
    · have hs : ¬ Superseded col log row := fun hs => hmem.mp hp hs.2
      rw [if_pos hp]
      refine ⟨hok.count 1, ?_, hanchored, fun n hn => hstay n (h.stays n hn),
        hg.deleted.trans h.deleted, ?_, fun r hr => hg.unreadable (h.unreadable hr), hmet⟩
      · simp [h.old, hs]
      · change s'.tally.anchors + 1 = _
        simp [hg.anchors, h.anchors, hr, hs, Nat.add_assoc]
    · have hs : Superseded col log row := ⟨hr, by_contra fun hn => hp (hmem.mpr hn)⟩
      rw [if_neg hp]
      refine ⟨hok, ?_, hanchored, fun n hn => hstay n (h.stays n hn),
        hg.deleted.trans h.deleted, ?_, fun r hr => hg.unreadable (h.unreadable hr), hmet⟩
      · simp [h.old, hs]
      · simp [hg.anchors, h.anchors, hs]

theorem PruneState.Ok.sorted (h : s.Ok col log) : PageSorted col log s [] (s, []) :=
  ⟨h, rfl, by simp, fun _ hn => hn, rfl, by simp, fun _ hr => hr, by simp⟩

theorem PageSorted.foldl {p : PruneState κ × List (StoredTick κ)} {done : List (StoredTick κ)}
    (h : PageSorted col log s done p) (hk : TickKeys col log) (hb : 0 < batchSize)
    (hrows : ∀ r ∈ rows, r ∈ log) :
    PageSorted col log s (done ++ rows) (rows.foldl (PruneState.sortRow col log batchSize) p) := by
  induction rows generalizing p done with
  | nil => simpa using h
  | cons row rows ih =>
    have hrow := h.step hk hb (hrows row (by simp))
    simpa using ih hrow fun r hr => hrows r (by simp [hr])

theorem Left.mem (hl : Left col full log) (h : x ∈ log) : x ∈ full := by
  obtain ⟨p, rfl, -⟩ := hl
  exact List.mem_of_mem_filter h

theorem Left.mem_of_newest (hl : Left col full log) (h : x ∈ full)
    (hn : ¬ NewerReadable col full x) : x ∈ log := by
  obtain ⟨p, rfl, hp⟩ := hl
  refine List.mem_filter.mpr ⟨h, ?_⟩
  by_contra hpx
  exact hn (hp x h (by simpa using hpx)).2

theorem Left.keys (hl : Left col full log) (hk : TickKeys col full) : TickKeys col log := by
  obtain ⟨p, rfl, -⟩ := hl
  exact hk.filter p

/-- The two checks change nothing when nobody else writes: every superseded row of a page sorts
before the tick kept for its schedule. -/
theorem doomedRows_eq (hl : Left col full log) (hk : TickKeys col full) (hb : 0 < batchSize)
    (h : s.Ok col full) (hrows : ∀ r ∈ rows, r ∈ log) :
    doomedRows col log batchSize s rows =
      ((rows.foldl (PruneState.sortRow col full batchSize) (s, [])).1,
        (rows.filter (Superseded col full ·)).map (·.pk)) := by
  have hs := h.sorted.foldl hk hb fun r hr => hl.mem (hrows r hr)
  unfold doomedRows
  rw [PruneState.sortRow_left hl hk hb]
  rw [List.nil_append] at hs
  generalize rows.foldl (PruneState.sortRow col full batchSize) (s, []) = p at hs ⊢
  obtain ⟨s', old⟩ := p
  obtain rfl : old = rows.filter (Superseded col full ·) := hs.old
  set old := rows.filter (Superseded col full ·) with hold
  have holder : ∀ row ∈ old, row.pk ∈ olderThanTheirAnchor col log old s'.anchors := by
    intro row hrow
    obtain ⟨hmem, hsup⟩ := List.mem_filter.mp hrow
    obtain ⟨hread, r, hr, hrr, hsame, hlt⟩ := of_decide_eq_true hsup
    obtain ⟨pk, hpk⟩ := Option.ne_none_iff_exists'.mp (hs.anchored row hmem hread)
    obtain ⟨hprot, x, hx, rfl, hxr, hnames⟩ := hs.ok.kept _ _ hpk
    have hnew := (hs.ok.newest _ hprot x hx rfl).2
    rw [KeyColumn.names_key hread] at hnames
    have hle : r.scheduledFor ≤ x.scheduledFor := by
      by_contra hgt
      have hsame' := KeyColumn.same_trans (KeyColumn.same_symm hnames) hsame
      exact hnew ⟨r, hr, hrr, hsame', by omega⟩
    apply mem_older_of_lt (hl.keys hk) hrow (hrows row hmem) (hl.mem_of_newest hx hnew) hpk
    exact (KeyColumn.place_lt_iff hnames).mpr (by omega)
  have hnone : (old.filter fun row => row.pk ∉ olderThanTheirAnchor col log old s'.anchors) = [] :=
    List.filter_eq_nil_iff.mpr fun row hrow => by simpa using holder row hrow
  have hnewest : newestOfTheirSchedules col log [] = [] := by
    simp [newestOfTheirSchedules]
  simp only [hnone, List.map_nil, hnewest, List.not_mem_nil, not_false_eq_true, decide_true,
    List.filter_true, List.length_nil]
  rfl

end Sorting

section Pages

variable {col : KeyColumn κ} {log full rows : List (StoredTick κ)} {cutoff : ℤ} {batchSize : ℕ}
  {write : Bool} {after : Option ℕ} {p : Pruned κ} {row x : StoredTick κ}

/-- The ticks a cutoff selects. -/
def selected (full : List (StoredTick κ)) (cutoff : ℤ) : List (StoredTick κ) :=
  full.filter fun row => row.scheduledFor < cutoff

/-- A log whose rows gone are superseded ticks up to a place. -/
def LeftUpTo (col : KeyColumn κ) (full log : List (StoredTick κ)) (after : Option ℕ) : Prop :=
  ∃ p : StoredTick κ → Bool, log = full.filter p ∧ ∀ x ∈ full, p x = false →
    (x.unreadable = false ∧ NewerReadable col full x) ∧ ∃ k ∈ after, x.pk ≤ k

theorem LeftUpTo.refl : LeftUpTo col log log after :=
  ⟨fun _ => true, (List.filter_true log).symm, fun _ _ h => Bool.noConfusion h⟩

theorem LeftUpTo.left (h : LeftUpTo col full log after) : Left col full log := by
  obtain ⟨p, hp, hgone⟩ := h
  exact ⟨p, hp, fun x hx hpx => (hgone x hx hpx).1⟩

/-- Rows gone behind the place do not move the next page. -/
theorem LeftUpTo.selectedPage (h : LeftUpTo col full log after) :
    selectedPage log cutoff after batchSize = selectedPage full cutoff after batchSize := by
  obtain ⟨p, rfl, hgone⟩ := h
  unfold DjangoOx.selectedPage Machine.page
  rw [List.filter_filter, List.filter_filter, List.filter_filter]
  congr 2
  apply List.filter_congr
  intro x hx
  cases hp : p x with
  | true => simp
  | false =>
    obtain ⟨-, k, hk, hle⟩ := hgone x hx hp
    have hnot : decide (∀ k ∈ after, k < x.pk) = false :=
      decide_eq_false fun hall => absurd (hall k hk) (by omega)
    simp only [hnot, Bool.false_and]

theorem LeftUpTo.delete (h : LeftUpTo col full log after) {last : StoredTick κ}
    (hmono : ∀ k ∈ after, k ≤ last.pk) (hrows : ∀ r ∈ rows, r ∈ full ∧ r.pk ≤ last.pk)
    (hk : TickKeys col full) :
    LeftUpTo col full (log.filter fun row =>
      row.pk ∉ (rows.filter (Superseded col full ·)).map (·.pk)) (some last.pk) := by
  obtain ⟨p, rfl, hgone⟩ := h
  refine ⟨_, List.filter_filter .., fun x hx hpx => ?_⟩
  by_cases hp : p x = true
  · have hmem : x.pk ∈ (rows.filter (Superseded col full ·)).map (·.pk) := by
      by_contra hmem
      rw [hp, decide_eq_true hmem] at hpx
      cases hpx
    obtain ⟨r, hr, hpk⟩ := List.mem_map.mp hmem
    obtain ⟨hr, hs⟩ := List.mem_filter.mp hr
    have heq : r = x := hk.eq_of_pk (hrows r hr).1 hx hpk
    subst heq
    exact ⟨of_decide_eq_true hs, _, rfl, (hrows r hr).2⟩
  · obtain ⟨hs, k, hk, hle⟩ := hgone x hx (by simpa using hp)
    exact ⟨hs, _, rfl, hle.trans (hmono k hk)⟩

theorem length_filter_pks (hk : TickKeys col log) (hsub : ∀ r ∈ rows, r ∈ log)
    (hn : (rows.map (·.pk)).Nodup) :
    (log.countP fun row => row.pk ∈ rows.map (·.pk)) = rows.length := by
  rw [List.countP_eq_length_filter]
  have hperm : (log.filter fun row => row.pk ∈ rows.map (·.pk)).Perm rows := by
    refine (List.perm_ext_iff_of_nodup (hk.filter _).pks.of_map hn.of_map).mpr fun x => ?_
    simp only [List.mem_filter, decide_eq_true_eq]
    constructor
    · rintro ⟨hx, hpk⟩
      obtain ⟨r, hr, hpk⟩ := List.mem_map.mp hpk
      exact hk.eq_of_pk (hsub r hr) hx hpk ▸ hr
    · intro hx
      exact ⟨hsub x hx, List.mem_map_of_mem hx⟩
  exact hperm.length_eq

/-- What a pass adds for the rows it visits. -/
structure Adds (col : KeyColumn κ) (full : List (StoredTick κ)) (write : Bool)
    (rows : List (StoredTick κ)) (p q : Pruned κ) : Prop where
  pages : q.pages.flatten = p.pages.flatten ++ rows
  doomed : q.doomed = p.doomed ++ (rows.filter (Superseded col full ·)).map (·.pk)
  log : q.log = if write then
    p.log.filter fun row => row.pk ∉ (rows.filter (Superseded col full ·)).map (·.pk) else p.log
  ok : q.state.Ok col full
  deleted : q.state.tally.deleted = p.state.tally.deleted + rows.countP (Superseded col full ·)
  anchors : q.state.tally.anchors = p.state.tally.anchors +
    rows.countP fun row => ¬ row.unreadable ∧ ¬ Superseded col full row
  unreadable : p.state.tally.unreadable ⊆ q.state.tally.unreadable
  met : ∀ row ∈ rows, row.unreadable → row ∈ q.state.tally.unreadable

theorem Adds.refl (h : p.state.Ok col full) : Adds col full write [] p p := by
  refine ⟨by simp, by simp, ?_, h, by simp, by simp, fun _ hr => hr, by simp⟩
  split_ifs <;> simp

theorem Adds.trans {q r : Pruned κ} {rows' : List (StoredTick κ)} (h : Adds col full write rows p q)
    (h' : Adds col full write rows' q r) : Adds col full write (rows ++ rows') p r where
  pages := by rw [h'.pages, h.pages, List.append_assoc]
  doomed := by rw [h'.doomed, h.doomed, List.filter_append, List.map_append, List.append_assoc]
  log := by
    rw [h'.log, h.log]
    split_ifs
    · rw [List.filter_filter]
      apply List.filter_congr
      intro x _
      rw [List.filter_append, List.map_append]
      simp only [List.mem_append, not_or]
      rw [Bool.and_comm, Bool.decide_and]
    · rfl
  ok := h'.ok
  deleted := by rw [h'.deleted, h.deleted, List.countP_append, Nat.add_assoc]
  anchors := by rw [h'.anchors, h.anchors, List.countP_append, Nat.add_assoc]
  unreadable _ hr := h'.unreadable (h.unreadable hr)
  met x hx hu := by
    rcases List.mem_append.mp hx with hx | hx
    · exact h'.unreadable (h.met x hx hu)
    · exact h'.met x hx hu

/-- One page of a pass nobody else writes beside, in terms of what is superseded. -/
theorem prunePage_eq (write : Bool) (hl : Left col full p.log) (hk : TickKeys col full) (hb : 0 < batchSize)
    (h : p.state.Ok col full) (hrows : ∀ r ∈ rows, r ∈ p.log) (hn : (rows.map (·.pk)).Nodup) :
    let s := (rows.foldl (PruneState.sortRow col full batchSize) (p.state, [])).1
    let doomed := (rows.filter (Superseded col full ·)).map (·.pk)
    prunePage col batchSize write p rows =
      { log := if write then p.log.filter fun row => row.pk ∉ doomed else p.log
        state := { s with tally :=
          { s.tally with deleted := s.tally.deleted + rows.countP (Superseded col full ·) } }
        doomed := p.doomed ++ doomed
        pages := p.pages ++ [rows] } := by
  unfold prunePage
  rw [doomedRows_eq hl hk hb h hrows]
  set doomed := (rows.filter (Superseded col full ·)).map (·.pk) with hdoomed
  have hsub : ∀ r ∈ rows.filter (Superseded col full ·), r ∈ p.log := fun r hr =>
    hrows r (List.mem_of_mem_filter hr)
  have hlen : doomed.length = rows.countP (Superseded col full ·) := by
    rw [hdoomed, List.length_map, List.countP_eq_length_filter]
  have hcount : (p.log.countP fun row => row.pk ∈ doomed) = doomed.length := by
    rw [hdoomed, List.length_map]
    exact length_filter_pks (hl.keys hk) hsub (hn.sublist (List.filter_sublist.map _))
  have hgone : deleteOrCount write p.log doomed =
      (if write then p.log.filter (fun row => row.pk ∉ doomed) else p.log,
        rows.countP (Superseded col full ·)) := by
    unfold deleteOrCount deleteTicks
    split_ifs with hnil
    · rw [← hlen, hnil]
      simp
    · rw [← hlen, hnil]
      simp
    · rw [hcount, hlen]
    · rw [hlen]
  dsimp only
  rw [hgone]

theorem prunePage_adds (write : Bool) (hl : Left col full p.log) (hk : TickKeys col full) (hb : 0 < batchSize)
    (h : p.state.Ok col full) (hrows : ∀ r ∈ rows, r ∈ p.log) (hn : (rows.map (·.pk)).Nodup) :
    Adds col full write rows p (prunePage col batchSize write p rows) := by
  have hs := h.sorted.foldl hk hb fun r hr => hl.mem (hrows r hr)
  rw [List.nil_append] at hs
  rw [prunePage_eq write hl hk hb h hrows hn]
  generalize rows.foldl (PruneState.sortRow col full batchSize) (p.state, []) = q at hs ⊢
  refine ⟨by simp, rfl, rfl, ⟨hs.ok.kept, hs.ok.newest, hs.ok.missing, hs.ok.sound.pks,
    hs.ok.sound.rows⟩, ?_, hs.anchors, hs.unreadable, hs.met⟩
  change q.1.tally.deleted + _ = _
  rw [hs.deleted]

/-- A page read behind which only superseded ticks are gone is a page of the whole log. -/
structure FullPage (col : KeyColumn κ) (full : List (StoredTick κ)) (cutoff : ℤ) (batchSize : ℕ)
    (after : Option ℕ) (log rows : List (StoredTick κ)) : Prop where
  whole : rows = Machine.page (·.pk) (selected full cutoff) after batchSize
  mem : ∀ r ∈ rows, r ∈ log
  pks : (rows.map (·.pk)).Nodup

theorem LeftUpTo.page (hl : LeftUpTo col full log after) (hk : TickKeys col full) :
    FullPage col full cutoff batchSize after log (DjangoOx.selectedPage log cutoff after batchSize) := by
  have hwhole : DjangoOx.selectedPage log cutoff after batchSize =
      Machine.page (·.pk) (selected full cutoff) after batchSize := hl.selectedPage
  have hmem : ∀ r ∈ DjangoOx.selectedPage log cutoff after batchSize, r ∈ log := fun r hr =>
    List.mem_of_mem_filter (Machine.mem_of_mem_page hr).1
  refine ⟨hwhole, hmem, ?_⟩
  have hnodup : (DjangoOx.selectedPage log cutoff after batchSize).Nodup :=
    hwhole ▸ Machine.nodup_page (hk.filter _).pks.of_map
  refine hnodup.map_on fun x hx y hy hxy => ?_
  exact hk.eq_of_pk (hl.left.mem (hmem x hx)) (hl.left.mem (hmem y hy)) hxy

/-- The place a full page moves to, with what is gone behind it. -/
theorem LeftUpTo.next (hl : LeftUpTo col full p.log after) (hk : TickKeys col full)
    (hpage : FullPage col full cutoff batchSize after p.log rows) {last : StoredTick κ}
    (hlast : rows.getLast? = some last)
    (hadds : Adds col full write rows p (prunePage col batchSize write p rows)) :
    LeftUpTo col full (prunePage col batchSize write p rows).log (some last.pk) := by
  have hle : ∀ r ∈ rows, r ∈ full ∧ r.pk ≤ last.pk := by
    intro r hr
    refine ⟨hl.left.mem (hpage.mem r hr), ?_⟩
    rw [hpage.whole] at hr hlast
    exact Machine.le_getLast_page hr hlast
  have hpast : ∀ k ∈ after, k ≤ last.pk := by
    intro k hk'
    have hmem := List.mem_of_getLast? hlast
    rw [hpage.whole] at hmem
    exact ((Machine.mem_of_mem_page hmem).2 k hk').le
  rw [hadds.log]
  split_ifs
  · exact hl.delete hpast hle hk
  · obtain ⟨q, hq, hgone⟩ := hl
    refine ⟨q, hq, fun x hx hqx => ?_⟩
    obtain ⟨hs, k, hk', hxk⟩ := hgone x hx hqx
    exact ⟨hs, _, rfl, hxk.trans (hpast k hk')⟩

/-- The pages of a pass: everything selected past a place, and what becomes of it. -/
theorem prunePages_adds (write : Bool) (hk : TickKeys col full) (hb : 0 < batchSize) {fuel : ℕ}
    (hl : LeftUpTo col full p.log after) (h : p.state.Ok col full)
    (hfuel : (Machine.pastPlace (·.pk) (selected full cutoff) after).length < fuel) :
    Adds col full write (Machine.pastPlace (·.pk) (selected full cutoff) after) p
      (prunePages col cutoff batchSize write fuel after p) := by
  induction fuel generalizing after p with
  | zero => omega
  | succ fuel ih =>
    have hpage : FullPage col full cutoff batchSize after p.log _ := hl.page hk
    have hadds := prunePage_adds write hl.left hk hb h hpage.mem hpage.pks
    unfold prunePages
    dsimp only
    generalize selectedPage p.log cutoff after batchSize = rows at hpage hadds ⊢
    have hwhole := hpage.whole
    split_ifs with hnil hshort
    · have hshort : (Machine.page (·.pk) (selected full cutoff) after batchSize).length <
          batchSize := by
        rw [← hwhole, hnil]
        exact hb
      rw [← Machine.page_eq_pastPlace hshort, ← hwhole, hnil]
      exact .refl h
    · rw [hwhole] at hshort
      rw [← Machine.page_eq_pastPlace hshort, ← hwhole]
      exact hadds
    · obtain ⟨last, hlast⟩ : ∃ last, rows.getLast? = some last :=
        Option.ne_none_iff_exists'.mp (by simpa using hnil)
      have hpks : ((selected full cutoff).map (·.pk)).Nodup := (hk.filter _).pks
      have happend := Machine.page_append hpks (hwhole ▸ hlast)
      rw [← hwhole] at happend
      rw [hlast, Option.map_some]
      rw [← happend] at hfuel ⊢
      refine hadds.trans (ih (hl.next hk hpage hlast hadds) hadds.ok ?_)
      have hpos : 0 < rows.length := List.length_pos_iff.mpr hnil
      rw [List.length_append] at hfuel
      omega

/-- A dry run and a writing one choose and count alike. -/
theorem prunePages_dry (cutoff : ℤ) (fuel : ℕ) (hk : TickKeys col full) (hb : 0 < batchSize)
    {q : Pruned κ}
    (hl : LeftUpTo col full p.log after) (hq : q.log = full) (h : p.state.Ok col full)
    (hs : q.state = p.state) (hd : q.doomed = p.doomed) (hg : q.pages = p.pages) :
    let real := prunePages col cutoff batchSize true fuel after p
    let dry := prunePages col cutoff batchSize false fuel after q
    dry.log = full ∧ dry.state = real.state ∧ dry.doomed = real.doomed ∧ dry.pages = real.pages := by
  dsimp only
  induction fuel generalizing after p q with
  | zero => exact ⟨hq, hs, hd, hg⟩
  | succ fuel ih =>
    have hpage : FullPage col full cutoff batchSize after p.log _ := hl.page hk
    have hadds := prunePage_adds true hl.left hk hb h hpage.mem hpage.pks
    have hreal := prunePage_eq true hl.left hk hb h hpage.mem hpage.pks
    have hsel : selectedPage q.log cutoff after batchSize = selectedPage p.log cutoff after batchSize := by
      rw [hq]
      exact hl.selectedPage.symm
    have hmem : ∀ r ∈ selectedPage p.log cutoff after batchSize, r ∈ q.log := fun r hr =>
      hq ▸ hl.left.mem (hpage.mem r hr)
    have hleft : Left col full q.log := hq ▸ Left.refl
    have hdry := prunePage_eq false hleft hk hb (hs ▸ h) hmem hpage.pks
    unfold prunePages
    dsimp only at hreal hdry ⊢
    rw [hsel]
    generalize selectedPage p.log cutoff after batchSize = rows at hpage hadds hreal hdry ⊢
    have hlog : (prunePage col batchSize false q rows).log = full := by rw [hdry]; exact hq
    have hstate : (prunePage col batchSize false q rows).state =
        (prunePage col batchSize true p rows).state := by rw [hdry, hreal, hs]
    have hdoomed : (prunePage col batchSize false q rows).doomed =
        (prunePage col batchSize true p rows).doomed := by rw [hdry, hreal, hd]
    have hpages : (prunePage col batchSize false q rows).pages =
        (prunePage col batchSize true p rows).pages := by rw [hdry, hreal, hg]
    split_ifs with hnil hshort
    · exact ⟨hq, hs, hd, hg⟩
    · exact ⟨hlog, hstate, hdoomed, hpages⟩
    · obtain ⟨last, hlast⟩ : ∃ last, rows.getLast? = some last :=
        Option.ne_none_iff_exists'.mp (by simpa using hnil)
      rw [hlast]
      exact ih (hl.next hk hpage hlast hadds) hlog hadds.ok hstate hdoomed hpages

theorem readKey_grows (col : KeyColumn κ) (found : List κ × TickTally κ) (hrow : row ∈ full) :
    found.2.Grows full (readKey col found row).2 := by
  unfold readKey
  split_ifs with hu
  · exact TickTally.keep_grows hrow hu.1
  · exact .refl
  · exact .refl

theorem readKeys_grows (col : KeyColumn κ) (found : List κ × TickTally κ) (hrows : ∀ r ∈ rows, r ∈ full) :
    found.2.Grows full (rows.foldl (readKey col) found).2 := by
  induction rows generalizing found with
  | nil => exact .refl
  | cons row rows ih =>
    have hrow := readKey_grows col found (hrows row (by simp))
    exact hrow.trans (ih _ fun r hr => hrows r (by simp [hr]))

theorem readKeysFrom_grows {fuel : ℕ} (found : List κ × TickTally κ) :
    found.2.Grows full (readKeysFrom col full batchSize fuel after found).2 := by
  induction fuel generalizing after found with
  | zero => exact .refl
  | succ fuel ih =>
    have hpage : found.2.Grows full
        ((Machine.page (·.pk) full after batchSize).foldl (readKey col) found).2 :=
      readKeys_grows col found fun r hr => (Machine.mem_of_mem_page hr).1
    unfold readKeysFrom
    dsimp only
    split_ifs
    · exact hpage
    · exact hpage.trans (ih _)

theorem scheduleKeys_grows (t : TickTally κ) :
    t.Grows full (scheduleKeys col full batchSize t).2 := by
  unfold scheduleKeys
  split_ifs
  · exact readKeysFrom_grows ([], t)
  · exact .refl

theorem anchors_ok {s : PruneState κ} (keys : List κ) (hk : TickKeys col full)
    (hb : 0 < batchSize) (h : s.Ok col full) :
    let s' := keys.foldl (PruneState.anchor col full batchSize) s
    s'.Ok col full ∧ s.tally.Grows full s'.tally := by
  dsimp only
  induction keys generalizing s with
  | nil => exact ⟨h, .refl⟩
  | cons name keys ih =>
    obtain ⟨hok, hg⟩ := h.anchor name hk hb
    obtain ⟨hok', hg'⟩ := ih hok
    exact ⟨hok', hg.trans hg'⟩

/-- The state a pass begins its pages with. -/
def prunedKeys (col : KeyColumn κ) (log : List (StoredTick κ)) (batchSize : ℕ) : Pruned κ :=
  let (keys, tally) := scheduleKeys col log batchSize ⟨0, 0, []⟩
  ⟨log, keys.foldl (PruneState.anchor col log batchSize) ⟨fun _ => none, [], [], tally⟩, [], []⟩

theorem pruneTicks_eq : pruneTicks col log cutoff batchSize write =
    prunePages col cutoff batchSize write (log.length + 1) none (prunedKeys col log batchSize) := rfl

theorem prunedKeys_ok (hk : TickKeys col log) (hb : 0 < batchSize) :
    (prunedKeys col log batchSize).state.Ok col log ∧
      (prunedKeys col log batchSize).state.tally.deleted = 0 ∧
      (prunedKeys col log batchSize).state.tally.anchors = 0 := by
  have hkeys : TickTally.Grows log ⟨0, 0, []⟩ (scheduleKeys col log batchSize ⟨0, 0, []⟩).2 :=
    scheduleKeys_grows _
  have hstart : PruneState.Ok col log ⟨fun _ => none, [], [],
      (scheduleKeys col log batchSize ⟨0, 0, []⟩).2⟩ := by
    refine ⟨fun _ _ h => ?_, by simp, by simp, hkeys.sound ⟨List.nodup_nil, by simp⟩⟩
    cases h
  obtain ⟨hok, hg⟩ := anchors_ok (scheduleKeys col log batchSize ⟨0, 0, []⟩).1 hk hb hstart
  exact ⟨hok, hg.deleted.trans hkeys.deleted, hg.anchors.trans hkeys.anchors⟩

omit [LinearOrder κ] in
theorem mem_selected : row ∈ selected log cutoff ↔ row ∈ log ∧ row.scheduledFor < cutoff := by
  simp [selected]

/-- What is superseded before a cutoff, by its place in the sorted pages. -/
theorem mem_superseded_pks (hk : TickKeys col log) (hrow : row ∈ log) :
    row.pk ∈ ((Machine.pastPlace (·.pk) (selected log cutoff) none).filter
        (Superseded col log ·)).map (·.pk) ↔
      row.unreadable = false ∧ row.scheduledFor < cutoff ∧ NewerReadable col log row := by
  rw [List.mem_map]
  constructor
  · rintro ⟨r, hr, hpk⟩
    obtain ⟨hr, hs⟩ := List.mem_filter.mp hr
    obtain ⟨hmem, hlt⟩ := mem_selected.mp (Machine.mem_pastPlace.mp hr).1
    have heq : r = row := hk.eq_of_pk hmem hrow hpk
    subst heq
    obtain ⟨hread, hnew⟩ := of_decide_eq_true hs
    exact ⟨hread, hlt, hnew⟩
  · rintro ⟨hread, hlt, hnew⟩
    have hpast : row ∈ Machine.pastPlace (·.pk) (selected log cutoff) none :=
      Machine.mem_pastPlace.mpr ⟨mem_selected.mpr ⟨hrow, hlt⟩, by simp⟩
    exact ⟨row, List.mem_filter.mpr ⟨hpast, decide_eq_true ⟨hread, hnew⟩⟩, rfl⟩

/-- The rows a pass deletes, keeps and counts when nobody else writes, with and without writing. -/
theorem prune_exact (hk : TickKeys col log) (hb : 0 < batchSize) :
    let real := pruneTicks col log cutoff batchSize true
    let dry := pruneTicks col log cutoff batchSize false
    (∀ row, row ∈ real.log ↔ row ∈ log ∧
      ¬ (row.unreadable = false ∧ row.scheduledFor < cutoff ∧ NewerReadable col log row)) ∧
    (∀ row ∈ log, row.pk ∈ real.doomed ↔
      row.unreadable = false ∧ row.scheduledFor < cutoff ∧ NewerReadable col log row) ∧
    real.state.tally.deleted + real.log.length = log.length ∧
    (∀ row ∈ log, row.unreadable →
      row ∈ real.log ∧ (row.scheduledFor < cutoff → row ∈ real.state.tally.unreadable)) ∧
    (∀ row ∈ real.state.tally.unreadable, row ∈ log ∧ row.unreadable) ∧
    (real.state.tally.unreadable.map (·.pk)).Nodup ∧
    real.state.tally.anchors = (selected log cutoff).countP (fun row =>
      row.unreadable = false ∧ ¬ NewerReadable col log row) ∧
    real.pages.flatten.Perm (selected log cutoff) ∧
    dry.log = log ∧ dry.doomed = real.doomed ∧ dry.state = real.state ∧ dry.pages = real.pages := by
  dsimp only
  obtain ⟨hok, hdeleted, hanchors⟩ := prunedKeys_ok hk hb
  rw [pruneTicks_eq, pruneTicks_eq]
  have hlog : (prunedKeys col log batchSize).log = log := rfl
  have hnone : (prunedKeys col log batchSize).doomed = [] := rfl
  have hempty : (prunedKeys col log batchSize).pages = [] := rfl
  generalize prunedKeys col log batchSize = p at hok hdeleted hanchors hlog hnone hempty ⊢
  have hleft : LeftUpTo col log p.log none := hlog ▸ LeftUpTo.refl
  have hperm : (Machine.pastPlace (·.pk) (selected log cutoff) none).Perm (selected log cutoff) := by
    unfold Machine.pastPlace
    refine (List.perm_insertionSort _ _).trans ?_
    simp
  have hfuel : (Machine.pastPlace (·.pk) (selected log cutoff) none).length < log.length + 1 := by
    have hle := List.length_filter_le (fun row : StoredTick κ => decide (row.scheduledFor < cutoff)) log
    rw [hperm.length_eq]
    exact Nat.lt_succ_of_le hle
  have hadds := prunePages_adds true hk hb hleft hok hfuel
  have hdry := prunePages_dry cutoff (log.length + 1) hk hb hleft hlog hok rfl rfl rfl
  generalize prunePages col cutoff batchSize true (log.length + 1) none p = real at hadds hdry ⊢
  set rest := Machine.pastPlace (·.pk) (selected log cutoff) none with hrest
  have hdoomed : ∀ row ∈ log, row.pk ∈ (rest.filter (Superseded col log ·)).map (·.pk) ↔
      row.unreadable = false ∧ row.scheduledFor < cutoff ∧ NewerReadable col log row :=
    fun row hrow => mem_superseded_pks hk hrow
  have hgone : real.log = log.filter fun row =>
      row.pk ∉ (rest.filter (Superseded col log ·)).map (·.pk) := by
    rw [hadds.log, hlog]
    rfl
  have hmem : ∀ row, row ∈ real.log ↔ row ∈ log ∧
      ¬ (row.unreadable = false ∧ row.scheduledFor < cutoff ∧ NewerReadable col log row) := by
    intro row
    rw [hgone, List.mem_filter, decide_eq_true_eq]
    exact and_congr_right fun hrow => not_congr (hdoomed row hrow)
  obtain ⟨hkept, hstate, hchosen, hpages⟩ := hdry
  refine ⟨hmem, ?_, ?_, ?_, hadds.ok.sound.rows, hadds.ok.sound.pks, ?_, ?_, hkept, hchosen, hstate,
    hpages⟩
  · intro row hrow
    rw [hadds.doomed, hnone, List.nil_append]
    exact hdoomed row hrow
  · have hrest : ∀ r ∈ rest.filter (Superseded col log ·), r ∈ log := fun r hr =>
      (mem_selected.mp (hperm.mem_iff.mp (List.mem_of_mem_filter hr))).1
    have hpks : ((rest.filter (Superseded col log ·)).map (·.pk)).Nodup := by
      have hall : (rest.map (·.pk)).Nodup := (hperm.map _).nodup_iff.mpr (hk.filter _).pks
      exact hall.sublist (List.filter_sublist.map _)
    have hcount := length_filter_pks hk hrest hpks
    have hsplit := List.length_eq_countP_add_countP (l := log)
      fun row : StoredTick κ => row.pk ∈ (rest.filter (Superseded col log ·)).map (·.pk)
    rw [hadds.deleted, hdeleted, hgone, ← List.countP_eq_length_filter,
      List.countP_eq_length_filter (l := rest)]
    simp only [decide_not, Bool.not_eq_true, Bool.decide_eq_false] at hsplit ⊢
    omega
  · intro row hrow hu
    constructor
    · refine (hmem row).mpr ⟨hrow, fun h => ?_⟩
      simp [h.1] at hu
    · intro hlt
      exact hadds.met row (hperm.mem_iff.mpr (mem_selected.mpr ⟨hrow, hlt⟩)) hu
  · rw [hadds.anchors, hanchors, Nat.zero_add, hperm.countP_eq]
    apply List.countP_congr
    intro row _
    simp only [decide_eq_true_eq]
    rcases Bool.eq_false_or_eq_true row.unreadable with hu | hu <;> simp [Superseded, hu]
  · rw [hadds.pages, hempty]
    exact hperm

end Pages

/-- Two spellings of one key, an unreadable tick on top, another before the cutoff, and bytes for a
key. -/
def unreadLog : List (StoredTick ℕ) :=
  [⟨1, .text 7, 10, true⟩, ⟨2, .text 8, 20, true⟩, ⟨3, .text 7, 15, false⟩, ⟨4, .text 8, 90, false⟩,
    ⟨5, .bytes, 5, true⟩, ⟨6, .text 3, 4, true⟩]

theorem prune_exact_unread :
    let real := pruneTicks ⟨(· % 5), 0⟩ unreadLog 50 2 true
    real.log.map (·.pk) = [1, 2, 3, 4, 5] ∧ real.pages.flatten.Perm (selected unreadLog 50) := by
  have hk : TickKeys ⟨(· % 5), 0⟩ unreadLog := ⟨by decide, by decide⟩
  have hb : 0 < 2 := by decide
  obtain ⟨-, -, -, -, -, -, -, hpages, -⟩ := prune_exact hk hb
  exact ⟨by decide, hpages⟩

end DjangoOx
