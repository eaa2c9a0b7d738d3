import DjangoOx.Bulk.Selection

/-! The moves of a selection are the single moves of its ids. -/
namespace DjangoOx

open Machine

namespace OxTask

/-- `release`, at an epoch given from outside. -/
def releaseAt (t : OxTask) (epoch now : ℤ) : Option OxTask :=
  if t.status = .waiting ∧ (t.leaseEpoch : ℤ) = epoch then some (t.released now) else none

end OxTask

/-- `UPDATE_CHUNK_SIZE` -/
def updateChunkSize : ℕ := 1000

/-- The locking read of a chunk, on a database with row locks. -/
def lockingRead (conn : Connection) : Db PUnit :=
  if conn.hasSelectForUpdate then Db.statement else pure ⟨⟩

namespace Actions

/-- `retry` -/
def retry (item : Item) (t : Table TaskId OxTask) : Bool × Table TaskId OxTask :=
  match pk item with
  | none => (false, t)
  | some id =>
    readThenMove (fun row => row.attempts < maxAttemptsLimit ∧ row.status.Retryable)
      (fun seen row => row.retry seen) id t

/-- `discard` -/
def discard (now : ℤ) (item : Item) (t : Table TaskId OxTask) : Bool × Table TaskId OxTask :=
  match pk item with
  | none => (false, t)
  | some id =>
    readThenMove (fun row => row.status.Discardable)
      (fun seen row => row.discard seen.leaseEpoch now) id t

/-- `_move_in_key_order` -/
def moveInKeyOrder (conn : Connection) (script : ℕ → List Answer) (ids : List TaskId)
    (moved : OxTask → Option OxTask) : Db ℕ :=
  Contention.run conn script (Db.atomic
    ((slices updateChunkSize (inKeyOrder conn ids)).foldlM (fun changed chunk => do
      lockingRead conn
      return changed + (← Db.update chunk fun _ row => moved row)) 0))

/-- What `retry_many` and `discard_many` do with the move they are for. -/
def moveSelection (conn : Connection) (script : ℕ → List Answer)
    (moved : OxTask → Option OxTask) (selection : List Item) : Db (ℕ × ℤ) := do
  let (ids, malformed) := idsOf selection
  let changed ← moveInKeyOrder conn script ids moved
  return (changed, (ids.length + malformed : ℤ) - changed)

/-- `retry_many` -/
def retryMany (conn : Connection) (script : ℕ → List Answer) (selection : List Item) :
    Db (ℕ × ℤ) :=
  moveSelection conn script OxTask.retryMany selection

/-- `discard_many` -/
def discardMany (conn : Connection) (script : ℕ → List Answer) (now : ℤ) (selection : List Item) :
    Db (ℕ × ℤ) :=
  moveSelection conn script (fun row => row.discardMany now) selection

end Actions

namespace Waiting

/-- `release` -/
def release (now : ℤ) (row : Item × ℤ) (t : Table TaskId OxTask) : Bool × Table TaskId OxTask :=
  match pk row.1 with
  | none => (false, t)
  | some id =>
    let moved := fun (_ : TaskId) (task : OxTask) => task.releaseAt row.2 now
    (t.matched [id] moved == 1, t.updateIn [id] moved)

/-- The epochs of a chunk, in order. -/
def epochsOf (chunk : List (TaskId × ℤ)) : List ℤ :=
  (chunk.map Prod.snd).dedup.insertionSort (· ≤ ·)

/-- `_pinned_rows`, on one row: the chunk's one epoch, or the CASE over its ids. -/
def atItsEpoch (chunk : List (TaskId × ℤ)) (id : TaskId) (leaseEpoch : ℤ) : Bool :=
  match epochsOf chunk with
  | [epoch] => leaseEpoch = epoch
  | epochs => epochs.find? (fun epoch => (id, epoch) ∈ chunk) = some leaseEpoch

/-- `_locked_in_key_order` around `body` -/
def lockedInKeyOrder {α : Type} (conn : Connection) (body : Db α) : Db α :=
  let locked : Db α := do
    lockingRead conn
    body
  -- inside a caller's transaction the block adds nothing
  if conn.hasSelectForUpdate ∧ conn.idle then Db.atomic locked else locked

/-- One chunk of `release_many`. -/
def releaseChunk (conn : Connection) (script : ℕ → List Answer) (now : ℤ)
    (chunk : List (TaskId × ℤ)) : Db ℕ :=
  Contention.run conn script (lockedInKeyOrder conn (Db.update (chunk.map Prod.fst) fun id row =>
    if row.status = .waiting ∧ atItsEpoch chunk id row.leaseEpoch then some (row.released now)
    else none))

/-- `release_many`: the `i`-th chunk's statements are answered by `script i`. -/
def releaseMany (conn : Connection) (script : ℕ → ℕ → List Answer) (now : ℤ)
    (rows : List (Item × ℤ)) : Db (ℕ × ℤ) := do
  let (pairs, malformed) := pinned conn rows
  let changed ← (slices updateChunkSize pairs).zipIdx.foldlM (fun changed chunk => do
    return changed + (← releaseChunk conn (script chunk.2) now chunk.1)) 0
  return (changed, (pairs.length + malformed : ℤ) - changed)

end Waiting

/-! What a chunk loop does in one transaction. -/

section Loop

variable {s : Session} {A : Answer → Prop} {P : Table TaskId OxTask → Prop}
  {r : Table TaskId OxTask} {ids : List TaskId} {f : TaskId → OxTask → Option OxTask}

theorem holds_lockingRead (conn : Connection) (h : s.At A P) :
    (lockingRead conn).Holds s (fun _ s' => s'.At A P) fun e s' => A (some e) ∧ s'.At A P := by
  unfold lockingRead
  by_cases hlock : conn.hasSelectForUpdate
  · rw [if_pos hlock]
    exact holds_statement h
  · rw [if_neg hlock]
    exact h

theorem transacts_lockedUpdate (conn : Connection) (r : Table TaskId OxTask) (ids : List TaskId)
    (f : TaskId → OxTask → Option OxTask) :
    Transacts r (fun n r' => n = r.matched ids f ∧ r' = r.updateIn ids f)
      (do lockingRead conn; Db.update ids f) := by
  intro A s h
  exact (holds_lockingRead conn h).bind (fun _ s' h' => transacts_update r ids f A s' h')
    fun _ _ he => he

theorem inKeyOrder_perm (conn : Connection) (ids : List TaskId) :
    (inKeyOrder conn ids).Perm ids :=
  List.perm_insertionSort _ ids

theorem flatMap_slices (ids : List TaskId) : (slices updateChunkSize ids).flatMap id = ids := by
  rw [List.flatMap_id]
  exact flatten_slices (by decide) ids

/-- The chunks in key order do what one statement about all the ids would do. -/
theorem transacts_moveInKeyOrder (conn : Connection) (r : Table TaskId OxTask) (hids : ids.Nodup)
    (moved : OxTask → Option OxTask) :
    Transacts r
      (fun n r' => n = r.matched ids (fun _ => moved) ∧ r' = r.updateIn ids fun _ => moved)
      (Db.atomic ((slices updateChunkSize (inKeyOrder conn ids)).foldlM (fun changed chunk => do
        lockingRead conn
        return changed + (← Db.update chunk fun _ row => moved row)) 0)) := by
  have hperm := inKeyOrder_perm conn ids
  have hordered : (inKeyOrder conn ids).Nodup := hperm.nodup_iff.mpr hids
  apply transacts_atomic
  intro A s h
  have hstep : ∀ n, ∀ c ∈ slices updateChunkSize (inKeyOrder conn ids), ∀ t (s : Session),
      s.At A (· = t) → Act.Holds (do
          lockingRead conn
          return n + (← Db.update c fun _ row => moved row)) s
        (fun m s' => m = n + t.matched (id c) (fun _ => moved) ∧
          s'.At A (· = t.updateIn (id c) fun _ => moved))
        fun e s' => A (some e) ∧ s'.At A (· = t) := by
    intro n c _ t s hs
    apply (holds_lockingRead conn hs).bind _ fun _ _ he => he
    intro _ s₁ h₁
    apply (transacts_update t c (fun _ => moved) A s₁ h₁).bind _ fun _ _ he => he
    rintro m s₂ ⟨⟨hm, hrows⟩, hall⟩
    exact ⟨by rw [hm]; rfl, hrows, hall⟩
  have hnodup : ((slices updateChunkSize (inKeyOrder conn ids)).flatMap id).Nodup := by
    rwa [flatMap_slices]
  refine (holds_chunks hnodup hstep h).mono ?_ ?_
  · rintro n s' ⟨hn, hrows, hall⟩
    rw [flatMap_slices] at hn hrows
    refine ⟨⟨?_, ?_⟩, hall⟩
    · rw [hn]
      exact Table.matched_congr hordered hids (fun _ => hperm.mem_iff) fun _ _ _ _ => rfl
    · rw [hrows]
      exact Table.updateIn_congr (fun _ => hperm.mem_iff) fun _ _ _ _ => rfl
  · rintro e s' ⟨he, -, -, -, -, hall⟩
    exact ⟨he, trivial, hall⟩

end Loop

section Singles

theorem moves_retry (item : Item) :
    Moves Actions.retry pk (fun _ row => row.retryMany) item := by
  intro t
  unfold Actions.retry
  cases pk item with
  | none => rfl
  | some id =>
    apply readThenMove_eq
    · intro r hr
      have hfits := of_decide_eq_true hr
      unfold OxTask.retry OxTask.retryMany
      rw [if_pos hfits, if_pos ⟨hfits.1, hfits.2, rfl⟩]
    · intro r hr
      unfold OxTask.retryMany
      rw [if_neg (of_decide_eq_false hr)]

theorem moves_discard (now : ℤ) (item : Item) :
    Moves (Actions.discard now) pk (fun _ row => row.discardMany now) item := by
  intro t
  unfold Actions.discard
  cases pk item with
  | none => rfl
  | some id =>
    apply readThenMove_eq
    · intro r hr
      have hstatus := of_decide_eq_true hr
      unfold OxTask.discard OxTask.discardMany
      rw [if_pos hstatus, if_pos ⟨hstatus, rfl⟩]
    · intro r hr
      unfold OxTask.discardMany
      rw [if_neg (of_decide_eq_false hr)]

/-- The epoch of the row's own call is the one `first` answers for its id. -/
theorem moves_release {now : ℤ} {first : TaskId → Option ℤ} {row : Item × ℤ}
    (h : ∀ id, pk row.1 = some id → first id = some row.2) :
    Moves (Waiting.release now) (fun row => pk row.1)
      (fun id task => (first id).bind fun epoch => task.releaseAt epoch now) row := by
  intro t
  unfold Waiting.release
  dsimp only
  cases hpk : pk row.1 with
  | none => rfl
  | some id =>
    have hsame : ∀ j ∈ [id], ∀ task : OxTask, t.rows j = some task →
        task.releaseAt row.2 now = (first j).bind fun epoch => task.releaseAt epoch now := by
      intro j hj task _
      rw [List.mem_singleton.mp hj, h id hpk, Option.bind_some]
    have hnodup := List.nodup_singleton id
    dsimp only
    rw [Table.matched_congr hnodup hnodup (fun _ => Iff.rfl) hsame,
      Table.updateIn_congr (fun _ => Iff.rfl) hsame]

end Singles

section Release

variable {r : Table TaskId OxTask} {now : ℤ} {chunk : List (TaskId × ℤ)} {conn : Connection}

/-- In a chunk of distinct ids, the epoch a row is compared with is the one its id came with. -/
theorem atItsEpoch_eq (hids : (chunk.map Prod.fst).Nodup) {id : TaskId} {epoch : ℤ}
    (h : (id, epoch) ∈ chunk) (leaseEpoch : ℤ) :
    Waiting.atItsEpoch chunk id leaseEpoch = true ↔ leaseEpoch = epoch := by
  have hmem : ∀ e, e ∈ Waiting.epochsOf chunk ↔ ∃ p ∈ chunk, p.2 = e := by
    intro e
    unfold Waiting.epochsOf
    rw [(List.perm_insertionSort _ _).mem_iff, List.mem_dedup, List.mem_map]
  have hepoch : epoch ∈ Waiting.epochsOf chunk := (hmem epoch).mpr ⟨_, h, rfl⟩
  have honly : ∀ e, (id, e) ∈ chunk → e = epoch := fun e he =>
    (Prod.mk.inj (List.inj_on_of_nodup_map hids he h rfl)).2
  have hfind : (Waiting.epochsOf chunk).find? (fun e => (id, e) ∈ chunk) = some epoch := by
    cases hf : (Waiting.epochsOf chunk).find? fun e => (id, e) ∈ chunk with
    | none => exact absurd (decide_eq_true h) (List.find?_eq_none.mp hf epoch hepoch)
    | some e =>
      have hfound : (id, e) ∈ chunk := by simpa using List.find?_some hf
      rw [honly e hfound]
  unfold Waiting.atItsEpoch
  split
  · next e he =>
    rw [he, List.mem_singleton] at hepoch
    rw [decide_eq_true_iff, hepoch]
  · rw [decide_eq_true_iff, hfind, Option.some.injEq, eq_comm]

theorem transacts_lockedInKeyOrder {R : ℕ → Table TaskId OxTask → Prop} {body : Db ℕ}
    (h : Transacts r R (do lockingRead conn; body)) :
    Transacts r R (Waiting.lockedInKeyOrder conn body) := by
  unfold Waiting.lockedInKeyOrder
  dsimp only
  by_cases hlock : conn.hasSelectForUpdate ∧ conn.idle
  · rw [if_pos hlock]
    apply transacts_atomic
    intro A s hs
    exact (h A s hs).mono (fun _ _ hq => hq) fun _ _ he => ⟨he.1, trivial, he.2.2⟩
  · rw [if_neg hlock]
    exact h

/-- One chunk's statement moves each of its rows as the row's own call would. -/
theorem transacts_releaseChunk {first : TaskId → Option ℤ} (hids : (chunk.map Prod.fst).Nodup)
    (hfirst : ∀ p ∈ chunk, first p.1 = some p.2) (conn : Connection) (now : ℤ)
    (r : Table TaskId OxTask) :
    Transacts r (fun n r' =>
        n = r.matched (chunk.map Prod.fst)
          (fun id task => (first id).bind fun epoch => task.releaseAt epoch now) ∧
        r' = r.updateIn (chunk.map Prod.fst)
          fun id task => (first id).bind fun epoch => task.releaseAt epoch now)
      (Waiting.lockedInKeyOrder conn (Db.update (chunk.map Prod.fst) fun id row =>
        if row.status = .waiting ∧ Waiting.atItsEpoch chunk id row.leaseEpoch then
          some (row.released now)
        else none)) := by
  have hsame : ∀ id ∈ chunk.map Prod.fst, ∀ task : OxTask, r.rows id = some task →
      (if task.status = .waiting ∧ Waiting.atItsEpoch chunk id task.leaseEpoch then
        some (task.released now) else none) =
      (first id).bind fun epoch => task.releaseAt epoch now := by
    intro id hid task _
    obtain ⟨⟨_, epoch⟩, hp, rfl⟩ := List.mem_map.mp hid
    rw [hfirst _ hp, Option.bind_some]
    unfold OxTask.releaseAt
    simp only [atItsEpoch_eq hids hp]
  apply transacts_lockedInKeyOrder
  intro A s h
  refine (transacts_lockedUpdate conn r _ _ A s h).mono ?_ fun _ _ he => he
  rintro n s' ⟨⟨hn, hrows⟩, hall⟩
  refine ⟨⟨?_, ?_⟩, hall⟩
  · rw [hn]
    exact Table.matched_congr hids hids (fun _ => Iff.rfl) hsame
  · rw [hrows]
    exact Table.updateIn_congr (fun _ => Iff.rfl) hsame

end Release

/-- Distinct ids and distinct malformed items, each counted once. -/
def distinctItems (selection : List Item) : ℕ :=
  (selection.filterMap pk).toFinset.card + (selection.filterMap malformedText).toFinset.card

/-- The call leaves the table that the single calls leave, and its counts are theirs; it raises only
where the database does not allow it to end, and then leaves what `raised` allows. -/
def ComesTo (call : Db (ℕ × ℤ)) (rows : Table TaskId OxTask) (singles : ℕ × Table TaskId OxTask)
    (distinct : ℕ) (allowed : Prop) (raised : Table TaskId OxTask → Prop) : Prop :=
  ∀ answers : List Answer, call.Holds ⟨rows, answers⟩
    (fun counts s => s.rows = singles.2 ∧ counts.1 = singles.1 ∧
      counts.1 + counts.2 = (distinct : ℤ))
    fun _ s => ¬ allowed ∧ raised s.rows

theorem length_eraseDups {α : Type*} [DecidableEq α] (l : List α) :
    l.eraseDups.length = l.toFinset.card := by
  rw [← List.toFinset_card_of_nodup (nodup_eraseDups l)]
  congr 1
  ext x
  rw [List.mem_toFinset, List.mem_toFinset, List.mem_eraseDups]

section Selection

variable {conn : Connection} {script : ℕ → List Answer} {selection order : List Item}
  {rows : Table TaskId OxTask}

/-- The move of a selection is the single move of each of its ids. -/
theorem comesTo_moveSelection {moved : OxTask → Option OxTask}
    {single : Item → Table TaskId OxTask → Bool × Table TaskId OxTask}
    (hsingle : ∀ item, Moves single pk (fun _ => moved) item) (conn : Connection)
    (script : ℕ → List Answer) (rows : Table TaskId OxTask)
    (horder : (order.filterMap pk).Perm (selection.filterMap pk).dedup) :
    ComesTo (Actions.moveSelection conn script moved selection) rows (oneByOne single order rows)
      (distinctItems selection) (Allowed conn script) fun t => conn.idle → t = rows := by
  have hnodup := nodup_eraseDups (selection.filterMap pk)
  have honce : (order.filterMap pk).Nodup := horder.nodup_iff.mpr (List.nodup_dedup _)
  have hmem : ∀ id, id ∈ (selection.filterMap pk).eraseDups ↔ id ∈ order.filterMap pk := by
    intro id
    rw [List.mem_eraseDups, horder.mem_iff, List.mem_dedup]
  have htransacts := transacts_moveInKeyOrder conn rows hnodup moved
  have hcount : rows.matched (selection.filterMap pk).eraseDups (fun _ => moved) =
      rows.matched (order.filterMap pk) fun _ => moved :=
    Table.matched_congr hnodup honce hmem fun _ _ _ _ => rfl
  have hrows : rows.updateIn (selection.filterMap pk).eraseDups (fun _ => moved) =
      rows.updateIn (order.filterMap pk) fun _ => moved :=
    Table.updateIn_congr hmem fun _ _ _ _ => rfl
  have hend : ∀ (n : ℕ) (t : Table TaskId OxTask),
      n = rows.matched (selection.filterMap pk).eraseDups (fun _ => moved) ∧
        t = rows.updateIn (selection.filterMap pk).eraseDups (fun _ => moved) →
      t = (oneByOne single order rows).2 ∧ n = (oneByOne single order rows).1 ∧
        (n : ℤ) + (((idsOf selection).1.length + (idsOf selection).2 : ℤ) - n) =
          (distinctItems selection : ℤ) := by
    rintro n t ⟨hn, ht⟩
    rw [oneByOne_eq (fun item _ => hsingle item) honce, ← hcount, ← hrows]
    refine ⟨ht, hn, ?_⟩
    unfold distinctItems idsOf
    dsimp only
    rw [length_eraseDups]
    omega
  intro answers
  have hraised := htransacts.run conn script (s := ⟨rows, answers⟩) rfl
  by_cases hallowed : Allowed conn script
  · have hends := htransacts.run_of_allowed hallowed (s := ⟨rows, answers⟩) rfl
    exact hends.bind (fun n s' h => hend n s'.rows h) fun _ _ hfalse => hfalse.elim
  · exact hraised.bind (fun n s' h => hend n s'.rows h) fun _ _ he => ⟨hallowed, fun _ => he⟩

end Selection

/-- `order` names each id of `rows` once, with the first epoch given for it. -/
structure FirstPerId (rows order : List (Item × ℤ)) : Prop where
  once : ((order.filterMap pin).map Prod.fst).Nodup
  first : ∀ p ∈ order.filterMap pin, (rows.filterMap pin).lookup p.1 = some p.2
  all : ∀ p ∈ rows.filterMap pin, p.1 ∈ (order.filterMap pin).map Prod.fst

section Pinned

variable {given order : List (Item × ℤ)}

theorem get?_firstEpochs (given : List (Item × ℤ)) (id : TaskId) :
    (firstEpochs given).get? id = (given.filterMap pin).lookup id := by
  unfold firstEpochs
  rw [Dict.get?_foldl_setDefault, Dict.get?_empty, Option.none_or]

theorem map_fst_filterMap_pin (given : List (Item × ℤ)) :
    (given.filterMap pin).map Prod.fst = given.filterMap fun row => pk row.1 := by
  rw [List.map_filterMap]
  apply List.filterMap_congr
  intro row _
  unfold pin
  cases pk row.1 with
  | none => rfl
  | some id => rfl

theorem mem_keys_firstEpochs (given : List (Item × ℤ)) (id : TaskId) :
    id ∈ (firstEpochs given).items.map Prod.fst ↔ id ∈ given.filterMap fun row => pk row.1 := by
  rw [← not_iff_not, ← Dict.get?_eq_none, get?_firstEpochs, List.lookup_eq_none_iff,
    ← map_fst_filterMap_pin, List.mem_map]
  constructor
  · rintro h ⟨p, hp, rfl⟩
    simpa using h p hp
  · intro h p hp
    have hne : id ≠ p.1 := fun he => h ⟨p, hp, he.symm⟩
    simpa using hne

theorem pinned_perm (conn : Connection) (given : List (Item × ℤ)) :
    (pinned conn given).1.Perm (firstEpochs given).items :=
  List.perm_insertionSort _ _

theorem nodup_pinned (conn : Connection) (given : List (Item × ℤ)) :
    ((pinned conn given).1.map Prod.fst).Nodup :=
  ((pinned_perm conn given).map Prod.fst).nodup_iff.mpr (firstEpochs given).nodup

theorem mem_pinned (conn : Connection) (given : List (Item × ℤ)) (id : TaskId) :
    id ∈ (pinned conn given).1.map Prod.fst ↔ id ∈ given.filterMap fun row => pk row.1 := by
  rw [((pinned_perm conn given).map Prod.fst).mem_iff, mem_keys_firstEpochs]

theorem length_pinned (conn : Connection) (given : List (Item × ℤ)) :
    (pinned conn given).1.length = (given.filterMap fun row => pk row.1).toFinset.card := by
  rw [← List.length_map (f := Prod.fst), ← List.toFinset_card_of_nodup (nodup_pinned conn given)]
  congr 1
  ext id
  rw [List.mem_toFinset, List.mem_toFinset, mem_pinned]

/-- The ids that `release_many` moves in one statement each. -/
def releaseChunks (conn : Connection) (given : List (Item × ℤ)) : List (List TaskId) :=
  (slices updateChunkSize (pinned conn given).1).map fun chunk => chunk.map Prod.fst

theorem flatten_releaseChunks (conn : Connection) (given : List (Item × ℤ)) :
    (releaseChunks conn given).flatten = (pinned conn given).1.map Prod.fst := by
  unfold releaseChunks
  rw [← List.map_flatten, flatten_slices (by decide)]

/-- Every chunk's pairs are pairs of the dictionary. -/
theorem get?_of_mem_slices {conn : Connection} {chunk : List (TaskId × ℤ)}
    (hchunk : chunk ∈ slices updateChunkSize (pinned conn given).1) {p : TaskId × ℤ}
    (hp : p ∈ chunk) : (firstEpochs given).get? p.1 = some p.2 := by
  have hmem : p ∈ (pinned conn given).1 := (mem_slices (by decide)).mpr ⟨chunk, hchunk, hp⟩
  exact Dict.get?_eq_some.mpr ((pinned_perm conn given).mem_iff.mp hmem)

theorem nodup_of_mem_slices {conn : Connection} {chunk : List (TaskId × ℤ)}
    (hchunk : chunk ∈ slices updateChunkSize (pinned conn given).1) :
    (chunk.map Prod.fst).Nodup := by
  have hall := nodup_pinned conn given
  rw [← flatten_releaseChunks] at hall
  exact (List.nodup_flatten.mp hall).1 _ (List.mem_map_of_mem hchunk)

end Pinned

section Release

variable {given order : List (Item × ℤ)}

/-- What the loop of `release_many` leaves, where each chunk's run ends or raises `Err`. -/
theorem holds_releaseChunks {Err : DatabaseError → Prop} (conn : Connection) (now : ℤ)
    (script : ℕ → ℕ → List Answer) (rows : Table TaskId OxTask) (answers : List Answer)
    (f : TaskId → OxTask → Option OxTask)
    (hchunk : ∀ chunk ∈ (slices updateChunkSize (pinned conn given).1).zipIdx,
      ∀ (t : Table TaskId OxTask) (s : Session), s.rows = t →
        (Waiting.releaseChunk conn (script chunk.2) now chunk.1).Holds s
          (fun n s' => n = t.matched (chunk.1.map Prod.fst) f ∧
            s'.rows = t.updateIn (chunk.1.map Prod.fst) f)
          fun e s' => Err e ∧ s'.rows = t) :
    Act.Holds ((slices updateChunkSize (pinned conn given).1).zipIdx.foldlM (fun changed chunk => do
        return changed + (← Waiting.releaseChunk conn (script chunk.2) now chunk.1)) 0)
      (⟨rows, answers⟩ : Session)
      (fun n s' => n = rows.matched (releaseChunks conn given).flatten f ∧
        s'.rows = rows.updateIn (releaseChunks conn given).flatten f)
      fun e s' => Err e ∧ ∃ done rest, releaseChunks conn given = done ++ rest ∧
        s'.rows = rows.updateIn done.flatten f := by
  have hkeys : (slices updateChunkSize (pinned conn given).1).zipIdx.map
      (fun chunk => chunk.1.map Prod.fst) = releaseChunks conn given := by
    unfold releaseChunks
    conv_rhs => rw [← List.zipIdx_map_fst 0 (slices updateChunkSize (pinned conn given).1)]
    rw [List.map_map]
    rfl
  have hflat : (slices updateChunkSize (pinned conn given).1).zipIdx.flatMap
      (fun chunk => chunk.1.map Prod.fst) = (releaseChunks conn given).flatten := by
    rw [List.flatMap_def, hkeys]
  have hnodup : ((slices updateChunkSize (pinned conn given).1).zipIdx.flatMap
      fun chunk => chunk.1.map Prod.fst).Nodup := by
    rw [hflat, flatten_releaseChunks]
    exact nodup_pinned conn given
  have hstep : ∀ n, ∀ chunk ∈ (slices updateChunkSize (pinned conn given).1).zipIdx,
      ∀ t (s : Session), s.rows = t → Act.Holds (do
          return n + (← Waiting.releaseChunk conn (script chunk.2) now chunk.1)) s
        (fun m s' => m = n + t.matched (chunk.1.map Prod.fst) f ∧
          s'.rows = t.updateIn (chunk.1.map Prod.fst) f)
        fun e s' => Err e ∧ s'.rows = t := by
    intro n chunk hmem t s hs
    apply (hchunk chunk hmem t s hs).bind _ fun _ _ he => he
    rintro m s' ⟨hm, hrows⟩
    exact ⟨by rw [hm], hrows⟩
  have hstart : (⟨rows, answers⟩ : Session).rows = rows := rfl
  refine (holds_chunks hnodup hstep hstart).mono ?_ ?_
  · rintro n s' ⟨hn, hrows⟩
    rw [hflat] at hn hrows
    exact ⟨hn, hrows⟩
  · rintro e s' ⟨he, done, rest, hsplit, hrows⟩
    refine ⟨he, done.map fun chunk => chunk.1.map Prod.fst,
      rest.map fun chunk => chunk.1.map Prod.fst, ?_, ?_⟩
    · rw [← hkeys, hsplit, List.map_append]
    · rw [hrows, List.flatMap_def]

/-- What one call moves, by the first epoch given for the id. -/
def moveAtFirst (given : List (Item × ℤ)) (now : ℤ) (id : TaskId) (task : OxTask) : Option OxTask :=
  ((firstEpochs given).get? id).bind fun epoch => task.releaseAt epoch now

theorem mem_flatten_releaseChunks (conn : Connection) (horder : FirstPerId given order)
    (id : TaskId) :
    id ∈ (releaseChunks conn given).flatten ↔ id ∈ order.filterMap fun row => pk row.1 := by
  rw [flatten_releaseChunks, mem_pinned, ← map_fst_filterMap_pin, ← map_fst_filterMap_pin]
  constructor
  · intro h
    obtain ⟨p, hp, rfl⟩ := List.mem_map.mp h
    exact horder.all p hp
  · intro h
    obtain ⟨p, hp, rfl⟩ := List.mem_map.mp h
    rw [map_fst_filterMap_pin, ← mem_keys_firstEpochs]
    have hget : (firstEpochs given).get? p.1 = some p.2 := by
      rw [get?_firstEpochs]
      exact horder.first p hp
    exact List.mem_map.mpr ⟨p, Dict.get?_eq_some.mp hget, rfl⟩

/-- The single calls come to one statement about the ids of all the chunks. -/
theorem oneByOne_release (conn : Connection) (now : ℤ) (rows : Table TaskId OxTask)
    (horder : FirstPerId given order) :
    oneByOne (Waiting.release now) order rows =
      (rows.matched (releaseChunks conn given).flatten (moveAtFirst given now),
        rows.updateIn (releaseChunks conn given).flatten (moveAtFirst given now)) := by
  have honce : (order.filterMap fun row => pk row.1).Nodup := by
    rw [← map_fst_filterMap_pin]
    exact horder.once
  have hnodup : (releaseChunks conn given).flatten.Nodup := by
    rw [flatten_releaseChunks]
    exact nodup_pinned conn given
  have hmem := mem_flatten_releaseChunks conn horder
  have hmoves : ∀ row ∈ order,
      Moves (Waiting.release now) (fun row => pk row.1) (moveAtFirst given now) row := by
    intro row hrow
    apply moves_release
    intro id hid
    have hp : (id, row.2) ∈ order.filterMap pin :=
      List.mem_filterMap.mpr ⟨row, hrow, by unfold pin; rw [hid]; rfl⟩
    rw [get?_firstEpochs]
    exact horder.first _ hp
  rw [Table.matched_congr hnodup honce hmem fun _ _ _ _ => rfl,
    Table.updateIn_congr hmem fun _ _ _ _ => rfl]
  exact oneByOne_eq hmoves honce rows

theorem lt_length_of_mem_zipIdx {conn : Connection} {chunk : List (TaskId × ℤ) × ℕ}
    (h : chunk ∈ (slices updateChunkSize (pinned conn given).1).zipIdx) :
    chunk.2 < (releaseChunks conn given).length := by
  obtain ⟨c, i⟩ := chunk
  unfold releaseChunks
  rw [List.length_map]
  exact (List.getElem?_eq_some_iff.mp (List.mk_mem_zipIdx_iff_getElem?.mp h)).1

/-- The release of many rows is the single release of each, by the first epoch given for it. -/
theorem comesTo_releaseMany (conn : Connection) (script : ℕ → ℕ → List Answer) (now : ℤ)
    (rows : Table TaskId OxTask) (horder : FirstPerId given order) :
    ComesTo (Waiting.releaseMany conn script now given) rows
      (oneByOne (Waiting.release now) order rows) (distinctItems (given.map Prod.fst))
      (∀ i < (releaseChunks conn given).length, Allowed conn (script i)) fun t => conn.idle →
        ByChunks (releaseChunks conn given) rows
          (oneByOne (Waiting.release now) order rows).2 t := by
  have hsingles := oneByOne_release conn now rows horder
  have hchunk : ∀ chunk ∈ (slices updateChunkSize (pinned conn given).1).zipIdx,
      ∀ t : Table TaskId OxTask, Transacts t (fun n t' =>
          n = t.matched (chunk.1.map Prod.fst) (moveAtFirst given now) ∧
          t' = t.updateIn (chunk.1.map Prod.fst) (moveAtFirst given now))
        (Waiting.lockedInKeyOrder conn (Db.update (chunk.1.map Prod.fst) fun id row =>
          if row.status = .waiting ∧ Waiting.atItsEpoch chunk.1 id row.leaseEpoch then
            some (row.released now)
          else none)) := by
    intro chunk hmem t
    have hslice := List.fst_mem_of_mem_zipIdx hmem
    exact transacts_releaseChunk (nodup_of_mem_slices hslice)
      (fun p hp => get?_of_mem_slices hslice hp) conn now t
  have hend : ∀ (n : ℕ) (t : Table TaskId OxTask),
      n = rows.matched (releaseChunks conn given).flatten (moveAtFirst given now) ∧
        t = rows.updateIn (releaseChunks conn given).flatten (moveAtFirst given now) →
      t = (oneByOne (Waiting.release now) order rows).2 ∧
        n = (oneByOne (Waiting.release now) order rows).1 ∧
        (n : ℤ) + (((pinned conn given).1.length + (pinned conn given).2 : ℤ) - n) =
          (distinctItems (given.map Prod.fst) : ℤ) := by
    rintro n t ⟨hn, ht⟩
    rw [hsingles]
    refine ⟨ht, hn, ?_⟩
    rw [length_pinned]
    unfold distinctItems pinned
    simp only [List.filterMap_map, Function.comp_def]
    omega
  intro answers
  by_cases hallowed : ∀ i < (releaseChunks conn given).length, Allowed conn (script i)
  · have hruns : ∀ chunk ∈ (slices updateChunkSize (pinned conn given).1).zipIdx,
        ∀ (t : Table TaskId OxTask) (s : Session), s.rows = t →
          (Waiting.releaseChunk conn (script chunk.2) now chunk.1).Holds s
            (fun n s' => n = t.matched (chunk.1.map Prod.fst) (moveAtFirst given now) ∧
              s'.rows = t.updateIn (chunk.1.map Prod.fst) (moveAtFirst given now))
            fun _ s' => False ∧ s'.rows = t := by
      intro chunk hmem t s hs
      have hscript := hallowed chunk.2 (lt_length_of_mem_zipIdx hmem)
      exact ((hchunk chunk hmem t).run_of_allowed hscript hs).mono (fun _ _ hq => hq)
        fun _ _ hfalse => hfalse.elim
    have hloop := holds_releaseChunks conn now script rows answers _ hruns
    exact hloop.bind (fun n s' h => hend n s'.rows h) fun _ _ he => he.1.elim
  · have hruns : ∀ chunk ∈ (slices updateChunkSize (pinned conn given).1).zipIdx,
        ∀ (t : Table TaskId OxTask) (s : Session), s.rows = t →
          (Waiting.releaseChunk conn (script chunk.2) now chunk.1).Holds s
            (fun n s' => n = t.matched (chunk.1.map Prod.fst) (moveAtFirst given now) ∧
              s'.rows = t.updateIn (chunk.1.map Prod.fst) (moveAtFirst given now))
            fun _ s' => True ∧ s'.rows = t := by
      intro chunk hmem t s hs
      exact ((hchunk chunk hmem t).run conn _ hs).mono (fun _ _ hq => hq)
        fun _ _ he => ⟨trivial, he⟩
    have hloop := holds_releaseChunks conn now script rows answers _ hruns
    refine hloop.bind (fun n s' h => hend n s'.rows h) ?_
    rintro e s' ⟨-, done, rest, hsplit, hrows⟩
    have hnodup : (releaseChunks conn given).flatten.Nodup := by
      rw [flatten_releaseChunks]
      exact nodup_pinned conn given
    refine ⟨hallowed, fun _ => ?_⟩
    rw [hrows, hsingles, hsplit]
    rw [hsplit] at hnodup
    exact byChunks_append hnodup

end Release

/-- The bulk moves do what the single moves of each distinct id do, in any order of these. -/
theorem bulk_eq_oneByOne (conn : Connection) (now : ℤ) (rows : Table TaskId OxTask) :
    (∀ (script : ℕ → List Answer) (selection order : List Item),
      (order.filterMap pk).Perm (selection.filterMap pk).dedup →
        ComesTo (Actions.retryMany conn script selection) rows (oneByOne Actions.retry order rows)
            (distinctItems selection) (Allowed conn script) (fun t => conn.idle → t = rows) ∧
          ComesTo (Actions.discardMany conn script now selection) rows
            (oneByOne (Actions.discard now) order rows) (distinctItems selection)
            (Allowed conn script) fun t => conn.idle → t = rows) ∧
    ∀ (script : ℕ → ℕ → List Answer) (given order : List (Item × ℤ)), FirstPerId given order →
      ComesTo (Waiting.releaseMany conn script now given) rows
        (oneByOne (Waiting.release now) order rows) (distinctItems (given.map Prod.fst))
        (∀ i < (releaseChunks conn given).length, Allowed conn (script i)) fun t => conn.idle →
          ByChunks (releaseChunks conn given) rows
            (oneByOne (Waiting.release now) order rows).2 t :=
  ⟨fun script _ _ horder =>
    ⟨comesTo_moveSelection moves_retry conn script rows horder,
      comesTo_moveSelection (moves_discard now) conn script rows horder⟩,
    fun script _ _ horder => comesTo_releaseMany conn script now rows horder⟩

/-- A deadlock on the first attempt, an id in two spellings, an id that is not there and one that is
none. -/
theorem bulk_eq_oneByOne_deadlock :
    let conn : Connection := ⟨true, true, false⟩
    let deadlock : Answer := some ⟨⟨none, none, none⟩, some ⟨some "40P01", none, none⟩⟩
    let script : ℕ → List Answer := fun attempt => if attempt = 1 then [none, deadlock] else []
    let failed : OxTask := { row ⟨"tasks.a", "default", 0, none, none⟩ 3 0 with
      status := .failed, attempts := 3 }
    let rows : Table TaskId OxTask := Table.single 1 failed
    let selection : List Item :=
      [.uuid 1, .str (List.replicate 31 '0' ++ ['1']), .str ['n', 'o'], .uuid 2]
    let given : List (Item × ℤ) := [(.uuid 1, 0), (.uuid 2, 0), (.uuid 1, 5)]
    ComesTo (Actions.retryMany conn script selection) rows
        (oneByOne Actions.retry [.uuid 2, .uuid 1] rows) (distinctItems selection)
        (Allowed conn script) (fun t => conn.idle → t = rows) ∧
      ComesTo (Actions.discardMany conn script 5 selection) rows
        (oneByOne (Actions.discard 5) [.uuid 2, .uuid 1] rows) (distinctItems selection)
        (Allowed conn script) (fun t => conn.idle → t = rows) ∧
      ComesTo (Waiting.releaseMany conn (fun _ => script) 5 given) rows
        (oneByOne (Waiting.release 5) [(.uuid 2, 0), (.uuid 1, 0)] rows)
        (distinctItems (given.map Prod.fst))
        (∀ i < (releaseChunks conn given).length, Allowed conn script) (fun t => conn.idle →
          ByChunks (releaseChunks conn given) rows
            (oneByOne (Waiting.release 5) [(.uuid 2, 0), (.uuid 1, 0)] rows).2 t) ∧
      ((Actions.retryMany conn script selection).exec ⟨rows, []⟩).1 = .ok (1, 2) := by
  intro conn deadlock script failed rows selection given
  have hbulk := bulk_eq_oneByOne conn 5 rows
  have hmany := hbulk.1 script selection [.uuid 2, .uuid 1] (by decide +kernel)
  exact ⟨hmany.1, hmany.2, hbulk.2 (fun _ => script) given [(.uuid 2, 0), (.uuid 1, 0)]
    ⟨by decide +kernel, by decide +kernel, by decide +kernel⟩, by decide +kernel⟩

end DjangoOx
