import DjangoOx.Machine.Page
import Mathlib.Data.Prod.Lex

/-! The rows of the tick log as `ox_prune` reads them, and its statements on them: the newest tick
that reads, a page of the selected ticks, the two checks before a `DELETE`, and the `DELETE`. -/
namespace DjangoOx

/-- A value in the column of schedule keys: text, or one of the two the driver hands over as no key. -/
inductive StoredKey (κ : Type)
  | text (key : κ)
  | bytes
  | undecodable
  deriving DecidableEq

/-- The column of schedule keys: the spelling its collation compares by, and the empty text. -/
structure KeyColumn (κ : Type) where
  collate : κ → κ
  empty : κ

/-- A tick row as it is stored. `scheduledFor` is the value's place in the order of its column, and
`decodes` says whether it is a date and time. -/
structure StoredTick (κ : Type) where
  pk : ℕ
  scheduleName : StoredKey κ
  scheduledFor : ℤ
  decodes : Bool
  deriving DecidableEq

/-- What a pass found and did. `unreadable` is a dictionary by primary key. -/
structure TickTally (κ : Type) where
  deleted : ℕ
  anchors : ℕ
  unreadable : List (StoredTick κ)
  deriving DecidableEq

namespace StoredTick

variable {κ : Type}

def unreadable (row : StoredTick κ) : Bool :=
  match row.scheduleName with
  | .text _ => !row.decodes
  | _ => true

/-- The key a read of the row answers: empty where the column holds no text. -/
def key (col : KeyColumn κ) (row : StoredTick κ) : κ :=
  match row.scheduleName with
  | .text key => key
  | _ => col.empty

end StoredTick

/-- Count a row that cannot be read, once however often it is met. -/
def TickTally.keep {κ : Type} (t : TickTally κ) (row : StoredTick κ) : TickTally κ :=
  if row.pk ∈ t.unreadable.map (·.pk) then t else { t with unreadable := t.unreadable ++ [row] }

namespace KeyColumn

variable {κ : Type} [LinearOrder κ] (col : KeyColumn κ)

/-- `schedule_name = name`, as the column's collation has it. -/
def names (name : κ) (row : StoredTick κ) : Bool :=
  match row.scheduleName with
  | .text key => col.collate key = col.collate name
  | _ => false

/-- Two rows of one schedule, for a first row whose key is text. -/
def same (a b : StoredTick κ) : Bool :=
  match a.scheduleName with
  | .text key => col.names key b
  | _ => false

/-- `ORDER BY schedule_name, scheduled_for`. -/
def place (row : StoredTick κ) : κ ×ₗ ℤ :=
  toLex (col.collate (row.key col), row.scheduledFor)

/-- `ORDER BY scheduled_for DESC` within a schedule. -/
def newestFirst (log : List (StoredTick κ)) (name : κ) : List (StoredTick κ) :=
  (log.filter (col.names name)).insertionSort fun a b => b.scheduledFor ≤ a.scheduledFor

/-- The distinct keys, one spelling for each the collation tells apart. -/
def distinctKeys (log : List (StoredTick κ)) : List κ :=
  (log.filterMap fun row => match row.scheduleName with
    | .text key => some key
    | _ => none).pwFilter fun a b => col.collate a ≠ col.collate b

end KeyColumn

variable {κ : Type} [LinearOrder κ]

/-- The first row that reads; those before it are kept. -/
def firstReadable : List (StoredTick κ) → TickTally κ → Option ℕ × TickTally κ
  | [], tally => (none, tally)
  | row :: rows, tally =>
    if row.unreadable then firstReadable rows (tally.keep row) else (some row.pk, tally)

/-- The rows and the ticks kept for their keys, in the order of the database. -/
def rowsAndAnchors (col : KeyColumn κ) (log rows : List (StoredTick κ))
    (anchors : κ → Option ℕ) : List (StoredTick κ) :=
  let wanted := rows.filterMap fun row => anchors (row.key col)
  (log.filter fun r => r.pk ∈ rows.map (·.pk) ++ wanted).insertionSort
    fun a b => col.place a ≤ col.place b

/-- Which of the rows sort before the tick kept for their schedule, that tick still being there. -/
def olderThanTheirAnchor (col : KeyColumn κ) (log rows : List (StoredTick κ))
    (anchors : κ → Option ℕ) : List ℕ :=
  let place := (rowsAndAnchors col log rows anchors).map (·.pk)
  (rows.filter fun row => match anchors (row.key col) with
    | none => false
    | some anchor => row.pk ∈ place ∧ anchor ∈ place ∧ place.idxOf row.pk < place.idxOf anchor).map
      (·.pk)

/-- Which of the rows have no row of their schedule sorting after them. -/
def newestOfTheirSchedules (col : KeyColumn κ) (log : List (StoredTick κ)) (pks : List ℕ) :
    List ℕ :=
  (log.filter fun row => row.pk ∈ pks ∧
    ¬ ∃ r ∈ log, col.same row r ∧ row.scheduledFor < r.scheduledFor).map (·.pk)

/-- The log after a `DELETE` by primary key, and how many rows went. -/
def deleteTicks (log : List (StoredTick κ)) (pks : List ℕ) : List (StoredTick κ) × ℕ :=
  (log.filter fun row => row.pk ∉ pks, log.countP fun row => row.pk ∈ pks)

/-- A page of the ticks before the cutoff. -/
def selectedPage (log : List (StoredTick κ)) (cutoff : ℤ) (after : Option ℕ) (batch : ℕ) :
    List (StoredTick κ) :=
  Machine.page (·.pk) (log.filter fun row => row.scheduledFor < cutoff) after batch

/-- The primary key and the unique constraint on the key and the instant. -/
structure TickKeys (col : KeyColumn κ) (log : List (StoredTick κ)) : Prop where
  pks : (log.map (·.pk)).Nodup
  instants : ∀ a ∈ log, ∀ b ∈ log, col.same a b → a.scheduledFor = b.scheduledFor → a = b

/-- A strictly newer tick of the row's schedule is in the log and reads. -/
def NewerReadable (col : KeyColumn κ) (log : List (StoredTick κ)) (row : StoredTick κ) : Prop :=
  ∃ r ∈ log, r.unreadable = false ∧ col.same row r ∧ row.scheduledFor < r.scheduledFor

instance (col : KeyColumn κ) (log : List (StoredTick κ)) (row : StoredTick κ) :
    Decidable (NewerReadable col log row) :=
  inferInstanceAs (Decidable (∃ r ∈ log, _))

section Keys

variable {col : KeyColumn κ} {log rows : List (StoredTick κ)} {a b c row : StoredTick κ} {name : κ}

omit [LinearOrder κ] in
theorem StoredTick.text_of_readable (col : KeyColumn κ) (h : row.unreadable = false) :
    row.scheduleName = .text (row.key col) := by
  unfold StoredTick.unreadable at h
  unfold StoredTick.key
  split at h
  · next heq => rw [heq]
  · cases h

theorem KeyColumn.names_key (h : a.unreadable = false) :
    col.names (a.key col) b = col.same a b := by
  unfold KeyColumn.same
  rw [StoredTick.text_of_readable col h]

theorem KeyColumn.names_iff :
    col.names name row ↔ ∃ key, row.scheduleName = .text key ∧ col.collate key = col.collate name := by
  unfold KeyColumn.names
  cases row.scheduleName <;> simp

theorem KeyColumn.same_iff : col.same a b ↔
    ∃ k l, a.scheduleName = .text k ∧ b.scheduleName = .text l ∧ col.collate l = col.collate k := by
  unfold KeyColumn.same
  cases a.scheduleName <;> simp [KeyColumn.names_iff]

theorem KeyColumn.same_refl (h : row.unreadable = false) : col.same row row :=
  KeyColumn.same_iff.mpr
    ⟨_, _, StoredTick.text_of_readable col h, StoredTick.text_of_readable col h, rfl⟩

theorem KeyColumn.same_symm (h : col.same a b) : col.same b a := by
  obtain ⟨k, l, ha, hb, he⟩ := KeyColumn.same_iff.mp h
  exact KeyColumn.same_iff.mpr ⟨l, k, hb, ha, he.symm⟩

theorem KeyColumn.same_trans (hab : col.same a b) (hbc : col.same b c) : col.same a c := by
  obtain ⟨k, l, ha, hb, he⟩ := KeyColumn.same_iff.mp hab
  obtain ⟨l', m, hb', hc, he'⟩ := KeyColumn.same_iff.mp hbc
  have hl : l' = l := by simpa using hb'.symm.trans hb
  exact KeyColumn.same_iff.mpr ⟨k, m, ha, hc, he' ▸ hl ▸ he⟩

theorem KeyColumn.same_of_names (ha : col.names name a) (hb : col.names name b) : col.same a b := by
  obtain ⟨k, hk, he⟩ := KeyColumn.names_iff.mp ha
  obtain ⟨l, hl, he'⟩ := KeyColumn.names_iff.mp hb
  exact KeyColumn.same_iff.mpr ⟨k, l, hk, hl, he'.trans he.symm⟩

theorem TickKeys.eq_of_pk (h : TickKeys col log) (ha : a ∈ log) (hb : b ∈ log)
    (hpk : a.pk = b.pk) : a = b :=
  List.inj_on_of_nodup_map h.pks ha hb hpk

theorem TickKeys.filter (h : TickKeys col log) (p : StoredTick κ → Bool) :
    TickKeys col (log.filter p) where
  pks := h.pks.sublist (List.filter_sublist.map _)
  instants a ha b hb := h.instants a (List.mem_of_mem_filter ha) b (List.mem_of_mem_filter hb)

theorem mem_newestFirst : row ∈ col.newestFirst log name ↔ row ∈ log ∧ col.names name row := by
  unfold KeyColumn.newestFirst
  rw [List.mem_insertionSort, List.mem_filter]

theorem pairwise_newestFirst :
    (col.newestFirst log name).Pairwise fun a b => b.scheduledFor ≤ a.scheduledFor :=
  Machine.pairwise_sorted (fun r : StoredTick κ => OrderDual.toDual r.scheduledFor) _

omit [LinearOrder κ] in
theorem mem_deleteTicks {pks : List ℕ} : row ∈ (deleteTicks log pks).1 ↔ row ∈ log ∧ row.pk ∉ pks := by
  simp [deleteTicks]

theorem mem_newestOfTheirSchedules {pks : List ℕ} {pk : ℕ} :
    pk ∈ newestOfTheirSchedules col log pks ↔ ∃ row ∈ log, row.pk = pk ∧ pk ∈ pks ∧
      ¬ ∃ r ∈ log, col.same row r ∧ row.scheduledFor < r.scheduledFor := by
  simp only [newestOfTheirSchedules, List.mem_map, List.mem_filter, decide_eq_true_eq]
  constructor
  · rintro ⟨row, ⟨hrow, hpk, hn⟩, rfl⟩
    exact ⟨row, hrow, rfl, hpk, hn⟩
  · rintro ⟨row, hrow, rfl, hpk, hn⟩
    exact ⟨row, ⟨hrow, hpk, hn⟩, rfl⟩

theorem KeyColumn.collate_key (h : col.same a b) :
    col.collate (a.key col) = col.collate (b.key col) := by
  obtain ⟨k, l, ha, hb, he⟩ := KeyColumn.same_iff.mp h
  unfold StoredTick.key
  rw [ha, hb]
  exact he.symm

theorem KeyColumn.place_lt_iff (h : col.same a b) :
    col.place a < col.place b ↔ a.scheduledFor < b.scheduledFor := by
  unfold KeyColumn.place
  rw [Prod.Lex.toLex_lt_toLex, KeyColumn.collate_key h]
  simp

theorem KeyColumn.place_le_iff (h : col.same a b) :
    col.place a ≤ col.place b ↔ a.scheduledFor ≤ b.scheduledFor := by
  unfold KeyColumn.place
  rw [Prod.Lex.toLex_le_toLex, KeyColumn.collate_key h]
  simp

section Older

variable {anchors : κ → Option ℕ} {pk : ℕ}

theorem mem_rowsAndAnchors : a ∈ rowsAndAnchors col log rows anchors ↔
    a ∈ log ∧ ((∃ row ∈ rows, row.pk = a.pk) ∨ ∃ row ∈ rows, anchors (row.key col) = some a.pk) := by
  simp [rowsAndAnchors, List.mem_insertionSort]

theorem pairwise_rowsAndAnchors :
    (rowsAndAnchors col log rows anchors).Pairwise fun a b => col.place a ≤ col.place b :=
  Machine.pairwise_sorted col.place _

theorem pks_rowsAndAnchors (hk : TickKeys col log) :
    ((rowsAndAnchors col log rows anchors).map (·.pk)).Nodup := by
  have hperm := List.perm_insertionSort (fun a b : StoredTick κ => col.place a ≤ col.place b)
    (log.filter fun r => r.pk ∈ rows.map (·.pk) ++ rows.filterMap fun row => anchors (row.key col))
  exact (hperm.map _).nodup_iff.mpr (hk.filter _).pks

/-- A row the first check answers has another row, the anchor of its key, not before it. -/
theorem anchor_of_mem_older (hk : TickKeys col log)
    (h : pk ∈ olderThanTheirAnchor col log rows anchors) :
    ∃ row ∈ rows, row.pk = pk ∧ ∃ b ∈ log, anchors (row.key col) = some b.pk ∧
      ∃ a ∈ log, a.pk = pk ∧ a ≠ b ∧ col.place a ≤ col.place b := by
  unfold olderThanTheirAnchor at h
  obtain ⟨row, hrow, rfl⟩ := List.mem_map.mp h
  obtain ⟨hmem, hp⟩ := List.mem_filter.mp hrow
  refine ⟨row, hmem, rfl, ?_⟩
  split at hp
  · cases hp
  · next anchor hanchor =>
    obtain ⟨hin, hin', hlt⟩ := of_decide_eq_true hp
    obtain ⟨a, ha, hapk⟩ := List.mem_map.mp hin
    obtain ⟨b, hb, rfl⟩ := List.mem_map.mp hin'
    rw [← hapk] at hlt
    refine ⟨b, (mem_rowsAndAnchors.mp hb).1, hanchor, a, (mem_rowsAndAnchors.mp ha).1, hapk, ?_, ?_⟩
    · rintro rfl
      exact lt_irrefl _ hlt
    · exact Machine.key_le_of_idxOf_lt pairwise_rowsAndAnchors (pks_rowsAndAnchors hk) ha hb hlt

theorem mem_older_of_lt (hk : TickKeys col log) (hrow : row ∈ rows) (hmem : row ∈ log)
    (hb : b ∈ log) (hanchor : anchors (row.key col) = some b.pk)
    (hlt : col.place row < col.place b) : row.pk ∈ olderThanTheirAnchor col log rows anchors := by
  have hin : row ∈ rowsAndAnchors col log rows anchors :=
    mem_rowsAndAnchors.mpr ⟨hmem, .inl ⟨row, hrow, rfl⟩⟩
  have hin' : b ∈ rowsAndAnchors col log rows anchors :=
    mem_rowsAndAnchors.mpr ⟨hb, .inr ⟨row, hrow, hanchor⟩⟩
  unfold olderThanTheirAnchor
  refine List.mem_map_of_mem (List.mem_filter.mpr ⟨hrow, ?_⟩)
  rw [hanchor]
  refine decide_eq_true ⟨List.mem_map_of_mem hin, List.mem_map_of_mem hin', ?_⟩
  exact Machine.idxOf_lt_of_key_lt pairwise_rowsAndAnchors (pks_rowsAndAnchors hk) hin hin' hlt

end Older

end Keys

end DjangoOx
