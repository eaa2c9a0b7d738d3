import DjangoOx.Machine.Halves
import DjangoOx.Machine.Table
import Mathlib.Data.List.Sort
import Mathlib.Data.List.MinMax

/-! Reading stored schedules and the tick log when a value in them may not read: statements that
fail as a whole are narrowed down to the rows and the keys at fault. -/
namespace DjangoOx

open Machine

/-- The most stored schedules one statement reads by key. -/
def storedBatchSize : ℕ := 500

/-- What the reads depend on: the model's columns and how each is decoded, how an error is told in a
reason, after which errors the connection takes another statement, and the parameters it takes. -/
structure StoredReader (F ν ω ε : Type) where
  concreteFields : List F
  primaryKey : F
  decode : F → ν → Except String ω
  decodeDatetime : ν → Except String ω
  errorText : ε → String
  canReadOn : ε → Bool
  maxQueryParams : Option ℕ

/-- A row as the driver hands its columns over: a value, or an error for any statement that reads
the column. -/
abbrev StoredCells (F ν ε : Type) := F → Except ε ν

/-- The first exception a read met. -/
inductive ReadCause (ε : Type)
  | raised (error : ε)
  | unreadableValue (why : String)
  deriving DecidableEq, Repr

/-- A stored schedule as `read_schedules` answers it. -/
inductive ScheduleRead (F ω ε : Type)
  | schedule (values : List (F × ω))
  | unreadableRow (pk : ℤ) (unreadable : List (F × String)) (values : List (F × ω))
    (cause : Option (ReadCause ε))
  deriving DecidableEq, Repr

namespace StoredReader

variable {α κ F ν ω ε : Type} [DecidableEq α] [DecidableEq κ]
  (m : StoredReader F ν ω ε)

/-! ### Schedule rows -/

/-- The fields of one row as a statement hands them over. -/
def cells (fields : List F) (row : StoredCells F ν ε) : Except ε (List (F × ν)) :=
  fields.mapM fun f => (row f).map (f, ·)

/-- `_fetched`: the fields of every row with one of the keys, each with its primary key. -/
def fetched (rows : Table ℤ (StoredCells F ν ε)) (pks : List ℤ) (fields : List F) :
    Except ε (List (ℤ × List (F × ν))) :=
  (rows.select fun k _ => k ∈ pks).mapM fun row => (cells fields row.2).map (row.1, ·)

/-- The fields that decode. -/
def decoded (fetched : List (F × ν)) : List (F × ω) :=
  fetched.filterMap fun (f, v) =>
    match m.decode f v with
    | .ok w => some (f, w)
    | .error _ => none

/-- The fields that do not, and why. -/
def undecoded (fetched : List (F × ν)) : List (F × String) :=
  fetched.filterMap fun (f, v) =>
    match m.decode f v with
    | .ok _ => none
    | .error why => some (f, why)

/-- `_hydrate`. -/
def hydrate (pk : ℤ) (fetched : List (F × ν)) : ScheduleRead F ω ε :=
  match m.undecoded fetched with
  | [] => .schedule (m.decoded fetched)
  | (f, why) :: rest =>
    .unreadableRow pk ((f, why) :: rest) (m.decoded fetched) (some (.unreadableValue why))

/-- What `_diagnose` knows of a row so far. -/
structure Diagnosis (F ω : Type) where
  found : Bool
  unreadable : List (F × String)
  values : List (F × ω)

/-- One turn of the loop of `_diagnose`. -/
def diagnoseField (rows : Table ℤ (StoredCells F ν ε)) (pk : ℤ) (d : Diagnosis F ω) (f : F) :
    Except ε (Diagnosis F ω) :=
  match fetched rows [pk] [f] with
  | .error e =>
    if m.canReadOn e = false then .error e
    else .ok { d with found := true, unreadable := d.unreadable ++ [(f, m.errorText e)] }
  | .ok [] => .ok d
  | .ok ((_, fetched) :: _) =>
    .ok ⟨true, d.unreadable ++ m.undecoded fetched, d.values ++ m.decoded fetched⟩

/-- `_diagnose`: `none` for a row that is gone. -/
def diagnose (rows : Table ℤ (StoredCells F ν ε)) (pk : ℤ) (cause : ε) (fields : List F) :
    Except ε (Option (ScheduleRead F ω ε)) := do
  let d ← fields.foldlM (m.diagnoseField rows pk) ⟨false, [], []⟩
  return if d.found then some (.unreadableRow pk d.unreadable d.values (some (.raised cause)))
    else none

/-- One statement of `_read_rows`. -/
def fetchRows (rows : Table ℤ (StoredCells F ν ε)) (fields : List F) (pks : List ℤ) :
    Except ε (ℤ → Option (ScheduleRead F ω ε)) :=
  (fetched rows pks fields).map fun found pk =>
    (found.find? fun row => row.1 = pk).map fun row => m.hydrate row.1 row.2

/-- What `_read_rows` makes of a key whose row failed alone. -/
def diagnosed (rows : Table ℤ (StoredCells F ν ε)) (fields : List F) (pk : ℤ) (e : ε) :
    Except ε (ℤ → Option (ScheduleRead F ω ε)) :=
  (m.diagnose rows pk e fields).map fun found other => if other = pk then found else none

/-- `_read_rows`. -/
def readRows (rows : Table ℤ (StoredCells F ν ε)) (fields : List F) :
    List ℤ → Except ε (ℤ → Option (ScheduleRead F ω ε)) :=
  readInHalves m.canReadOn (m.fetchRows rows fields) (m.diagnosed rows fields)

/-- `_selected`. -/
def selected [DecidableEq F] : Option (List F) → List F
  | none => m.concreteFields
  | some named => m.concreteFields.filter fun f => f = m.primaryKey ∨ f ∈ named

/-- The keys of one statement of `read_schedules`. -/
def scheduleStep : ℕ :=
  max (match m.maxQueryParams with
    | none => storedBatchSize
    | some limit => if limit = 0 then storedBatchSize else min storedBatchSize limit) 1

/-- `read_schedules`; `held` is `_held_key`, for keys that convert. -/
def readSchedules [DecidableEq F] (rows : Table ℤ (StoredCells F ν ε)) (held : α → ℤ) (pks : List α) (lock : Bool)
    (fields : Option (List F)) : Except ε (List (α × ScheduleRead F ω ε)) := do
  let asked := pks.eraseDups
  let wanted := (asked.map held).eraseDups
  let inTurn := if lock then wanted.insertionSort (· ≤ ·) else wanted
  let found ← (slices m.scheduleStep inTurn).foldlM (fun found batch => do
    return merge found (← m.readRows rows (m.selected fields) batch)) fun _ => none
  return asked.filterMap fun pk => (found (held pk)).map (pk, ·)

/-- The field is handed over and decodes. -/
def cellReads (row : StoredCells F ν ε) (f : F) : Bool :=
  match row f with
  | .error _ => false
  | .ok v => (m.decode f v).isOk

/-- Every field a read is for reads. -/
def RowReads (fields : List F) (row : StoredCells F ν ε) : Prop :=
  ∀ f ∈ fields, m.cellReads row f = true

instance (fields : List F) (row : StoredCells F ν ε) : Decidable (m.RowReads fields row) :=
  inferInstanceAs (Decidable (∀ _ ∈ _, _))

end StoredReader

/-! ### The tick log -/

/-- A row of the tick log: where the database orders its tick, the tick as text, and the error of
every statement that covers the row, where there is one. -/
structure LoggedTick (κ ν ε : Type) where
  scheduleName : κ
  scheduledFor : ℤ
  text : Except ε ν
  failure : Option ε := none

/-- What the tick log holds for a key. -/
inductive TickRead (ω ε : Type)
  | absent
  | tick (at' : ω)
  | unreadable (reason : String) (cause : ReadCause ε)
  deriving DecidableEq, Repr

/-- How `latest_ticks` can raise. -/
inductive LatestFailure (ε : Type)
  | raised (error : ε)
  | keyError
  deriving DecidableEq, Repr

namespace StoredReader

variable {α κ F ν ω ε : Type} [DecidableEq α] [DecidableEq κ]
  (m : StoredReader F ν ω ε)

/-- The ticks a statement covers. -/
def covered (log : List (LoggedTick κ ν ε)) (since : Option ℤ) (keys : List κ) :
    List (LoggedTick κ ν ε) :=
  log.filter fun t => t.scheduleName ∈ keys ∧ ∀ s ∈ since, s ≤ t.scheduledFor

/-- The newest of some ticks. -/
def newestOf (ticks : List (LoggedTick κ ν ε)) : Option (LoggedTick κ ν ε) :=
  ticks.find? fun t => ticks.all fun u => u.scheduledFor ≤ t.scheduledFor

/-- `Max("scheduled_for")` of a key. -/
def newestTick (log : List (LoggedTick κ ν ε)) (since : Option ℤ) (key : κ) :
    Option (LoggedTick κ ν ε) :=
  newestOf (covered log since [key])

/-- The newest tick of each key that has one, as text. It fails as a whole on a row that fails every
statement, and where one of these newest ticks cannot be handed over. -/
def newestTexts (log : List (LoggedTick κ ν ε)) (since : Option ℤ) (keys : List κ) :
    Except ε (κ → Option ν) :=
  match (covered log since keys).findSome? LoggedTick.failure with
  | some e => .error e
  | none => do
    let groups := keys.filterMap fun key => (newestTick log since key).map (key, ·)
    let texts ← groups.mapM fun g => g.2.text.map (g.1, ·)
    return fun key => texts.lookup key

/-- A key's answer from a statement that did not fail. -/
def tickRead : Option ν → TickRead ω ε
  | none => .absent
  | some text =>
    match m.decodeDatetime text with
    | .ok at' => .tick at'
    | .error why => .unreadable ("scheduled_for " ++ why) (.unreadableValue why)

/-- One statement of `_latest`. -/
def fetchLatest (log : List (LoggedTick κ ν ε)) (since : Option ℤ) (keys : List κ) :
    Except ε (κ → Option (TickRead ω ε)) :=
  (newestTexts log since keys).map fun found key =>
    if key ∈ keys then some (m.tickRead (found key)) else none

/-- What `_latest` makes of a key whose statement failed alone. -/
def fetchFailed (key : κ) (e : ε) : Except ε (κ → Option (TickRead ω ε)) :=
  .ok fun other =>
    if other = key then some (.unreadable ("scheduled_for " ++ m.errorText e) (.raised e)) else none

/-- `_latest`. -/
def latest (log : List (LoggedTick κ ν ε)) (since : Option ℤ) :
    List κ → Except ε (κ → Option (TickRead ω ε)) :=
  readInHalves m.canReadOn (m.fetchLatest log since) m.fetchFailed

/-- The keys of one statement of `latest_ticks`: one parameter a key, and one for `since`. -/
def latestStep (wanted : ℕ) : ℕ :=
  match m.maxQueryParams with
  | none => max wanted 1
  | some limit => if limit = 0 then max wanted 1 else max (limit - 1) 1

/-- `latest_ticks`. -/
def latestTicks (log : List (LoggedTick κ ν ε)) (keys : List κ) (since : Option ℤ) :
    Except (LatestFailure ε) (List (κ × TickRead ω ε)) := do
  let wanted := keys.eraseDups
  let found ← ((slices (m.latestStep wanted.length) wanted).foldlM (fun found batch => do
    return merge found (← m.latest log since batch)) fun _ => none).mapError .raised
  wanted.mapM fun key =>
    match found key with
    | none => .error .keyError
    | some read => .ok (key, read)

/-! ### What a row answers -/

section rows

variable {rows : Table ℤ (StoredCells F ν ε)} {fields : List F} {pk : ℤ} {row : StoredCells F ν ε}
  {e : ε}

/-- The fields of a row that read. -/
def readValues (fields : List F) (row : StoredCells F ν ε) : List (F × ω) :=
  m.decoded (fields.filterMap fun f => (row f).toOption.map (f, ·))

/-- The fields of a row that do not read, and why. -/
def unreadFields (fields : List F) (row : StoredCells F ν ε) : List (F × String) :=
  fields.flatMap fun f =>
    match row f with
    | .error e => [(f, m.errorText e)]
    | .ok v => m.undecoded [(f, v)]

/-- What `read_schedules` answers for a row. -/
def rowAnswer (fields : List F) (pk : ℤ) (row : StoredCells F ν ε) : ScheduleRead F ω ε :=
  match cells fields row with
  | .ok fetched => m.hydrate pk fetched
  | .error e =>
    .unreadableRow pk (m.unreadFields fields row) (m.readValues fields row) (some (.raised e))

theorem mem_unreadFields {f : F} :
    (∃ why, (f, why) ∈ m.unreadFields fields row) ↔ f ∈ fields ∧ m.cellReads row f = false := by
  unfold unreadFields cellReads undecoded
  simp only [List.mem_flatMap]
  constructor
  · rintro ⟨why, g, hg, hmem⟩
    cases hrow : row g with
    | error e =>
      simp only [hrow, List.mem_singleton, Prod.mk.injEq] at hmem
      rw [hmem.1]
      exact ⟨hg, by rw [hrow]⟩
    | ok v =>
      cases hdec : m.decode g v with
      | ok w => simp [hrow, hdec] at hmem
      | error why' =>
        simp only [hrow, hdec, List.filterMap_cons, List.filterMap_nil, List.mem_singleton,
          Prod.mk.injEq] at hmem
        rw [hmem.1]
        refine ⟨hg, ?_⟩
        rw [hrow]
        dsimp only
        rw [hdec]
        rfl
  · rintro ⟨hf, hreads⟩
    cases hrow : row f with
    | error e => exact ⟨m.errorText e, f, hf, by simp [hrow]⟩
    | ok v =>
      rw [hrow] at hreads
      cases hdec : m.decode f v with
      | ok w =>
        dsimp only at hreads
        rw [hdec] at hreads
        cases hreads
      | error why => exact ⟨why, f, hf, by simp [hrow, hdec]⟩

theorem unreadFields_cons (f : F) (fields : List F) (row : StoredCells F ν ε) :
    m.unreadFields (f :: fields) row = m.unreadFields [f] row ++ m.unreadFields fields row := by
  simp [unreadFields]

theorem readValues_cons (f : F) (fields : List F) (row : StoredCells F ν ε) :
    m.readValues (f :: fields) row = m.readValues [f] row ++ m.readValues fields row := by
  unfold readValues decoded
  rw [← List.filterMap_append, ← List.filterMap_append]
  rfl

theorem unreadFields_eq_nil : m.unreadFields fields row = [] ↔ m.RowReads fields row := by
  constructor
  · intro h f hf
    by_contra hreads
    obtain ⟨why, hmem⟩ := m.mem_unreadFields.mpr ⟨hf, Bool.eq_false_of_not_eq_true hreads⟩
    rw [h] at hmem
    cases hmem
  · intro h
    apply List.eq_nil_iff_forall_not_mem.mpr
    rintro ⟨f, why⟩ hmem
    obtain ⟨hf, hreads⟩ := m.mem_unreadFields.mp ⟨why, hmem⟩
    rw [h f hf] at hreads
    cases hreads

theorem cells_eq_ok {fetched : List (F × ν)} (h : cells fields row = .ok fetched) :
    fetched = fields.filterMap fun f => (row f).toOption.map (f, ·) := by
  rw [eq_filterMap_of_mapM h]
  congr 1
  funext f
  cases row f <;> rfl

theorem undecoded_cells {fetched : List (F × ν)} (h : cells fields row = .ok fetched) :
    m.undecoded fetched = m.unreadFields fields row := by
  have hforall := mapM_eq_ok.mp h
  unfold unreadFields
  induction hforall with
  | nil => rfl
  | @cons f v fields fetched hf hl ih =>
    rw [List.flatMap_cons, ← ih (mapM_eq_ok.mpr hl)]
    cases hrow : row f with
    | error e =>
      rw [hrow] at hf
      cases hf
    | ok x =>
      rw [hrow] at hf
      cases hf
      unfold undecoded
      rw [← List.filterMap_append]
      rfl

/-- A row whose columns are all handed over is answered by what decodes of it, and any other row by
its columns one at a time. Either way the fields that do not read are the ones named. -/
theorem rowAnswer_eq : m.rowAnswer fields pk row =
    if m.RowReads fields row then .schedule (m.readValues fields row)
    else .unreadableRow pk (m.unreadFields fields row) (m.readValues fields row)
      (match cells fields row with
        | .ok _ => (m.unreadFields fields row).head?.map fun u => .unreadableValue u.2
        | .error e => some (.raised e)) := by
  unfold rowAnswer
  cases hcells : cells fields row with
  | ok fetched =>
    dsimp only
    unfold hydrate
    rw [m.undecoded_cells hcells, cells_eq_ok hcells]
    by_cases hreads : m.RowReads fields row
    · rw [if_pos hreads, m.unreadFields_eq_nil.mpr hreads]
      rfl
    · rw [if_neg hreads]
      cases hun : m.unreadFields fields row with
      | nil => exact absurd (m.unreadFields_eq_nil.mp hun) hreads
      | cons u rest => rfl
  | error e =>
    have hreads : ¬ m.RowReads fields row := by
      intro h
      obtain ⟨f, hf, hrow⟩ := exists_of_mapM_eq_error hcells
      have hcell := h f hf
      unfold cellReads at hcell
      cases hr : row f with
      | error e' =>
        rw [hr] at hcell
        cases hcell
      | ok v =>
        rw [hr] at hrow
        cases hrow
    rw [if_neg hreads]

/-! ### The statements and the rows -/

theorem fetched_singleton (hrow : rows.rows pk = some row) :
    fetched rows [pk] fields = (cells fields row).map fun fetched => [(pk, fetched)] := by
  have hselect : rows.select (fun k _ => k ∈ [pk]) = [(pk, row)] := by
    have hnodup := rows.select_fst_nodup fun k _ => k ∈ [pk]
    have hmem {x : ℤ × StoredCells F ν ε} :
        x ∈ rows.select (fun k _ => k ∈ [pk]) ↔ x = (pk, row) := by
      rw [show x = (x.1, x.2) from rfl, Table.mem_select, List.mem_singleton, Prod.mk.injEq]
      constructor
      · rintro ⟨hx, hpk⟩
        rw [hpk, hrow] at hx
        exact ⟨hpk, (Option.some.inj hx).symm⟩
      · rintro ⟨hpk, hx⟩
        rw [hpk, hx]
        exact ⟨hrow, rfl⟩
    cases hl : rows.select (fun k _ => k ∈ [pk]) with
    | nil =>
      have := hmem.mpr rfl
      rw [hl] at this
      cases this
    | cons x l =>
      rw [hl] at hnodup
      have hx := hmem.mp (by rw [hl]; exact List.mem_cons_self)
      cases l with
      | nil => rw [hx]
      | cons y l =>
        have hy := hmem.mp (by rw [hl]; exact List.mem_cons_of_mem _ List.mem_cons_self)
        rw [hx, hy] at hnodup
        exact absurd List.mem_cons_self (List.nodup_cons.mp hnodup).1
  unfold fetched
  rw [hselect, List.mapM_cons, List.mapM_nil]
  cases cells fields row <;> rfl

theorem fetched_missing (hrow : rows.rows pk = none) : fetched rows [pk] fields = .ok [] := by
  have hselect : rows.select (fun k _ => k ∈ [pk]) = [] := by
    apply List.eq_nil_iff_forall_not_mem.mpr
    rintro ⟨k, r⟩ hmem
    obtain ⟨hr, hk⟩ := Table.mem_select.mp hmem
    rw [List.mem_singleton] at hk
    rw [hk, hrow] at hr
    cases hr
  unfold fetched
  rw [hselect]
  rfl

/-- The errors of every row are ones to read on after. -/
def ReadsOn (rows : Table ℤ (StoredCells F ν ε)) : Prop :=
  ∀ k row, rows.rows k = some row → ∀ f e, row f = .error e → m.canReadOn e = true

theorem foldlM_diagnoseField (hon : m.ReadsOn rows) (hrow : rows.rows pk = some row)
    (fields : List F) (d : Diagnosis F ω) :
    fields.foldlM (m.diagnoseField rows pk) d = .ok
      ⟨d.found || !fields.isEmpty, d.unreadable ++ m.unreadFields fields row,
        d.values ++ m.readValues fields row⟩ := by
  induction fields generalizing d with
  | nil => simp [unreadFields, readValues, decoded, pure, Except.pure]
  | cons f fields ih =>
    rw [List.foldlM_cons]
    have hone : m.diagnoseField rows pk d f = .ok
        ⟨true, d.unreadable ++ m.unreadFields [f] row, d.values ++ m.readValues [f] row⟩ := by
      unfold diagnoseField
      rw [fetched_singleton hrow]
      cases hcell : row f with
      | error e =>
        have hcells : cells [f] row = .error e := by
          unfold cells
          rw [List.mapM_cons, hcell]
          rfl
        rw [hcells]
        have hread := hon pk row hrow f e hcell
        simp [Except.map, hread, unreadFields, readValues, decoded, hcell, Except.toOption]
      | ok v =>
        have hcells : cells [f] row = .ok [(f, v)] := by
          unfold cells
          rw [List.mapM_cons, hcell]
          rfl
        rw [hcells]
        simp [Except.map, unreadFields, readValues, hcell, Except.toOption]
    rw [hone]
    refine (ih _).trans ?_
    rw [m.unreadFields_cons f fields, m.readValues_cons f fields, List.append_assoc,
      List.append_assoc]
    simp

/-- The columns one at a time: what a row that failed alone is answered as. -/
theorem diagnose_eq (hon : m.ReadsOn rows) (hrow : rows.rows pk = some row) (hne : fields ≠ []) :
    m.diagnose rows pk e fields = .ok (some (.unreadableRow pk (m.unreadFields fields row)
      (m.readValues fields row) (some (.raised e)))) := by
  unfold diagnose
  rw [m.foldlM_diagnoseField hon hrow]
  cases fields with
  | nil => exact absurd rfl hne
  | cons f fields => rfl

theorem diagnosed_eq (hon : m.ReadsOn rows) (hrow : rows.rows pk = some row) (hne : fields ≠ []) :
    m.diagnosed rows fields pk e = .ok fun other =>
      if other = pk then some (.unreadableRow pk (m.unreadFields fields row)
        (m.readValues fields row) (some (.raised e))) else none := by
  unfold diagnosed
  rw [m.diagnose_eq hon hrow hne]
  rfl

theorem find?_of_nodup {β : Type} {l : List (ℤ × β)} (hl : (l.map Prod.fst).Nodup) {v : β}
    (h : (pk, v) ∈ l) : l.find? (fun x => x.1 = pk) = some (pk, v) := by
  cases hf : l.find? fun x => x.1 = pk with
  | none =>
    have hnone := List.find?_eq_none.mp hf (pk, v) h
    simp at hnone
  | some x =>
    have hx : x.1 = pk := by simpa using List.find?_some hf
    rw [List.inj_on_of_nodup_map hl (List.mem_of_find?_eq_some hf) h hx]

theorem fst_of_mapM {l : List (ℤ × StoredCells F ν ε)} {r : List (ℤ × List (F × ν))}
    (h : l.mapM (fun row => (cells fields row.2).map (row.1, ·)) = .ok r) :
    r.map Prod.fst = l.map Prod.fst := by
  have hforall := mapM_eq_ok.mp h
  clear h
  induction hforall with
  | nil => rfl
  | @cons x y l r hx _ ih =>
    rw [List.map_cons, List.map_cons, ih]
    cases hc : cells fields x.2 with
    | error e =>
      rw [hc] at hx
      cases hx
    | ok c =>
      rw [hc] at hx
      cases hx
      rfl

theorem fetched_fst {pks : List ℤ} {r : List (ℤ × List (F × ν))} (h : fetched rows pks fields = .ok r) :
    (r.map Prod.fst).Nodup := by
  rw [fst_of_mapM h]
  exact rows.select_fst_nodup _

/-- A row's columns in a statement that did not fail. -/
theorem mem_fetched {pks : List ℤ} {r : List (ℤ × List (F × ν))} (h : fetched rows pks fields = .ok r)
    {c : List (F × ν)} : (pk, c) ∈ r ↔
      pk ∈ pks ∧ ∃ row, rows.rows pk = some row ∧ cells fields row = .ok c := by
  constructor
  · intro hmem
    have heq := eq_filterMap_of_mapM h
    rw [heq] at hmem
    obtain ⟨⟨k, row⟩, hsel, hto⟩ := List.mem_filterMap.mp hmem
    obtain ⟨hrow, hk⟩ := Table.mem_select.mp hsel
    cases hc : cells fields row with
    | error e =>
      rw [hc] at hto
      cases hto
    | ok c' =>
      rw [hc] at hto
      cases hto
      exact ⟨hk, row, hrow, hc⟩
  · rintro ⟨hk, row, hrow, hc⟩
    have hsel : (pk, row) ∈ rows.select fun k _ => k ∈ pks := Table.mem_select.mpr ⟨hrow, hk⟩
    obtain ⟨y, hy, hfy⟩ := exists_of_mapM_eq_ok h hsel
    rw [hc] at hfy
    cases hfy
    exact hy

theorem local_fetchRows (hon : m.ReadsOn rows) :
    Local m.canReadOn (m.fetchRows rows fields) (m.diagnosed rows fields) := by
  constructor
  · intro pks e h
    unfold fetchRows at h
    cases hf : fetched rows pks fields with
    | ok r =>
      rw [hf] at h
      cases h
    | error e' =>
      rw [hf] at h
      cases h
      obtain ⟨⟨k, row⟩, hsel, hx⟩ := exists_of_mapM_eq_error hf
      cases hc : cells fields row with
      | ok c =>
        rw [hc] at hx
        cases hx
      | error e' =>
        rw [hc] at hx
        cases hx
        obtain ⟨f, -, hcell⟩ := exists_of_mapM_eq_error hc
        cases hr : row f with
        | ok v =>
          rw [hr] at hcell
          cases hcell
        | error e' =>
          rw [hr] at hcell
          cases hcell
          exact hon k row (Table.mem_select.mp hsel).1 f e hr
  · intro e h
    have hselect : rows.select (fun k _ => k ∈ ([] : List ℤ)) = [] := by
      apply List.eq_nil_iff_forall_not_mem.mpr
      rintro ⟨k, r⟩ hmem
      exact List.not_mem_nil (Table.mem_select.mp hmem).2
    unfold fetchRows fetched at h
    rw [hselect] at h
    cases h
  · intro pks found h key
    unfold fetchRows at h
    cases hf : fetched rows pks fields with
    | error e =>
      rw [hf] at h
      cases h
    | ok r =>
      rw [hf] at h
      cases h
      have hnodup := fetched_fst hf
      constructor
      · intro hkey
        cases hrow : rows.rows key with
        | none =>
          refine ⟨fun _ => none, ?_, ?_⟩
          · unfold fetchRows
            rw [fetched_missing hrow]
            rfl
          · symm
            rw [Option.map_eq_none_iff, List.find?_eq_none]
            intro x hx
            obtain ⟨-, row, hr, -⟩ := (mem_fetched hf).mp (show (x.1, x.2) ∈ r from hx)
            have hne : x.1 ≠ key := by
              rintro rfl
              rw [hrow] at hr
              cases hr
            simpa using hne
        | some row =>
          have hsel : (key, row) ∈ rows.select fun k _ => k ∈ pks :=
            Table.mem_select.mpr ⟨hrow, hkey⟩
          obtain ⟨y, hy, hfy⟩ := exists_of_mapM_eq_ok hf hsel
          cases hc : cells fields row with
          | error e =>
            rw [hc] at hfy
            cases hfy
          | ok c =>
            rw [hc] at hfy
            cases hfy
            refine ⟨fun k => if key = k then some (m.hydrate key c) else none, ?_, ?_⟩
            · unfold fetchRows
              rw [fetched_singleton hrow, hc]
              change Except.ok _ = Except.ok _
              congr 1
              funext k
              by_cases hk : key = k <;> simp [hk]
            · have hfind := find?_of_nodup hnodup (show (key, c) ∈ r from hy)
              change _ = Option.map _ (r.find? _)
              rw [hfind]
              simp
      · intro hkey
        rw [Option.map_eq_none_iff, List.find?_eq_none]
        intro x hx
        obtain ⟨hx, -⟩ := (mem_fetched hf).mp (show (x.1, x.2) ∈ r from hx)
        have hne : x.1 ≠ key := by
          rintro rfl
          exact hkey hx
        simpa using hne
  · intro key e h
    unfold fetchRows at h
    cases hrow : rows.rows key with
    | none =>
      rw [fetched_missing hrow] at h
      cases h
    | some row =>
      rw [fetched_singleton hrow] at h
      have hne : fields ≠ [] := by
        rintro rfl
        cases h
      exact ⟨_, m.diagnosed_eq hon hrow hne, fun other hother => if_neg hother⟩

/-- What a key is answered alone. -/
theorem answerAlone_fetchRows (hon : m.ReadsOn rows) (pk : ℤ) :
    answerAlone (m.fetchRows rows fields) (m.diagnosed rows fields) pk =
      (rows.rows pk).map (m.rowAnswer fields pk) := by
  unfold answerAlone fetchRows
  cases hrow : rows.rows pk with
  | none =>
    rw [fetched_missing hrow]
    rfl
  | some row =>
    rw [fetched_singleton hrow]
    unfold rowAnswer
    cases hc : cells fields row with
    | ok c => simp [Except.map, hc]
    | error e =>
      have hne : fields ≠ [] := by
        rintro rfl
        cases hc
      simp only [Except.map, m.diagnosed_eq hon hrow hne, Option.map_some, hc, if_true]

theorem scheduleStep_pos : 0 < m.scheduleStep :=
  lt_of_lt_of_le one_pos (le_max_right _ _)

/-- `read_schedules` ends, and answers each key as its row is answered by itself. -/
theorem readSchedules_eq [DecidableEq F] (hon : m.ReadsOn rows) (held : α → ℤ) (pks : List α)
    (lock : Bool) (named : Option (List F)) :
    m.readSchedules rows held pks lock named = .ok (pks.eraseDups.filterMap fun pk =>
      ((rows.rows (held pk)).map (m.rowAnswer (m.selected named) (held pk))).map (pk, ·)) := by
  unfold readSchedules
  have hlocal : Local m.canReadOn (m.fetchRows rows (m.selected named))
      (m.diagnosed rows (m.selected named)) := m.local_fetchRows hon
  have hread := foldlM_readInHalves hlocal
    (slices m.scheduleStep (if lock then
      (pks.eraseDups.map held).eraseDups.insertionSort (· ≤ ·) else
      (pks.eraseDups.map held).eraseDups)) fun _ => none
  unfold readRows
  dsimp only
  rw [hread]
  change Except.ok _ = Except.ok _
  congr 1
  apply List.filterMap_congr
  intro pk hpk
  have hmem : held pk ∈ (slices m.scheduleStep (if lock then
      (pks.eraseDups.map held).eraseDups.insertionSort (· ≤ ·) else
      (pks.eraseDups.map held).eraseDups)).flatten := by
    rw [flatten_slices m.scheduleStep_pos]
    have hheld : held pk ∈ (pks.eraseDups.map held).eraseDups :=
      List.mem_eraseDups.mpr (List.mem_map_of_mem hpk)
    split
    · rwa [List.mem_insertionSort]
    · exact hheld
  dsimp only
  rw [if_pos hmem, m.answerAlone_fetchRows hon, Option.or_none]

end rows

/-! ### What a key answers -/

section ticks

variable {log : List (LoggedTick κ ν ε)} {since : Option ℤ} {key : κ} {keys : List κ} {e : ε}

/-- The text of a key's newest tick. -/
def newestText (log : List (LoggedTick κ ν ε)) (since : Option ℤ) (key : κ) : Option ν :=
  (newestTick log since key).bind fun t => t.text.toOption

/-- No tick of the key fails the statement, and its newest is handed over. -/
def HandedOver (log : List (LoggedTick κ ν ε)) (since : Option ℤ) (key : κ) : Prop :=
  (∀ t ∈ covered log since [key], t.failure.isNone = true) ∧
    ∀ t ∈ newestTick log since key, t.text.isOk = true

/-- And its newest decodes. -/
def KeyReads (log : List (LoggedTick κ ν ε)) (since : Option ℤ) (key : κ) : Prop :=
  HandedOver log since key ∧
    ∀ text ∈ newestText log since key, (m.decodeDatetime text).isOk = true

instance (log : List (LoggedTick κ ν ε)) (since : Option ℤ) (key : κ) :
    Decidable (HandedOver log since key) :=
  inferInstanceAs (Decidable (_ ∧ _))

instance (log : List (LoggedTick κ ν ε)) (since : Option ℤ) (key : κ) :
    Decidable (m.KeyReads log since key) :=
  inferInstanceAs (Decidable (_ ∧ _))

/-- The errors of every tick are ones to read on after. -/
def TicksReadOn (log : List (LoggedTick κ ν ε)) : Prop :=
  ∀ t ∈ log, ∀ e, t.text = .error e ∨ t.failure = some e → m.canReadOn e = true

theorem mem_covered {t : LoggedTick κ ν ε} :
    t ∈ covered log since keys ↔
      t ∈ log ∧ t.scheduleName ∈ keys ∧ ∀ s ∈ since, s ≤ t.scheduledFor := by
  unfold covered
  rw [List.mem_filter, decide_eq_true_eq]

theorem covered_subset (hkey : key ∈ keys) {t : LoggedTick κ ν ε} (ht : t ∈ covered log since [key]) :
    t ∈ covered log since keys := by
  obtain ⟨hlog, hname, hsince⟩ := mem_covered.mp ht
  rw [List.mem_singleton] at hname
  exact mem_covered.mpr ⟨hlog, hname ▸ hkey, hsince⟩

omit [DecidableEq κ] in
theorem newestOf_mem {ticks : List (LoggedTick κ ν ε)} {t : LoggedTick κ ν ε}
    (h : newestOf ticks = some t) :
    t ∈ ticks ∧ ∀ u ∈ ticks, u.scheduledFor ≤ t.scheduledFor := by
  have hmax := List.find?_some h
  simp only [List.all_eq_true, decide_eq_true_eq] at hmax
  exact ⟨List.mem_of_find?_eq_some h, hmax⟩

omit [DecidableEq κ] in
theorem newestOf_eq_none {ticks : List (LoggedTick κ ν ε)} (h : newestOf ticks = none) :
    ticks = [] := by
  cases hmax : ticks.argmax fun t => t.scheduledFor with
  | none => exact List.argmax_eq_none.mp hmax
  | some t =>
    have ht := List.find?_eq_none.mp h t (List.argmax_mem hmax)
    refine absurd ?_ ht
    simp only [List.all_eq_true, decide_eq_true_eq]
    exact fun u hu => List.le_of_mem_argmax hu hmax

/-- What a statement that hands every newest tick over has found. -/
theorem texts_of_mapM {texts : List (κ × ν)}
    (h : ((keys.filterMap fun key => (newestTick log since key).map (key, ·)).mapM
      fun g => g.2.text.map (g.1, ·)) = .ok texts) :
    texts = keys.filterMap fun key => (newestText log since key).map (key, ·) := by
  rw [eq_filterMap_of_mapM h, List.filterMap_filterMap]
  congr 1
  funext key
  unfold newestText
  cases newestTick log since key with
  | none => rfl
  | some t =>
    dsimp only [Option.map_some, Option.bind_some]
    cases t.text <;> rfl

/-- A statement fails on a key that is not handed over, or answers each of its keys. -/
theorem newestTexts_cases (log : List (LoggedTick κ ν ε)) (since : Option ℤ) (keys : List κ) :
    (∃ found, newestTexts log since keys = .ok found ∧ ∀ key ∈ keys,
      HandedOver log since key ∧ found key = newestText log since key) ∨
    ∃ e, newestTexts log since keys = .error e ∧ (∃ key ∈ keys, ¬ HandedOver log since key) ∧
      ∃ t ∈ log, t.text = .error e ∨ t.failure = some e := by
  unfold newestTexts
  cases hf : (covered log since keys).findSome? LoggedTick.failure with
  | some e =>
    right
    obtain ⟨t, ht, hfail⟩ := List.exists_of_findSome?_eq_some hf
    obtain ⟨hlog, hname, hsince⟩ := mem_covered.mp ht
    refine ⟨e, rfl, ⟨t.scheduleName, hname, fun h => ?_⟩, t, hlog, .inr hfail⟩
    have hnone := h.1 t (mem_covered.mpr ⟨hlog, List.mem_singleton_self _, hsince⟩)
    rw [hfail] at hnone
    cases hnone
  | none =>
    have hnone := List.findSome?_eq_none_iff.mp hf
    dsimp only
    cases hm : (keys.filterMap fun key => (newestTick log since key).map (key, ·)).mapM
        fun g => g.2.text.map (g.1, ·) with
    | error e =>
      right
      obtain ⟨g, hg, hx⟩ := exists_of_mapM_eq_error hm
      obtain ⟨key, hkey, hsome⟩ := List.mem_filterMap.mp hg
      obtain ⟨t, ht, rfl⟩ := Option.map_eq_some_iff.mp hsome
      have htext : t.text = .error e := by
        cases htext : t.text with
        | ok v => simp [htext, Except.map] at hx
        | error e' =>
          rw [htext] at hx
          cases hx
          rfl
      refine ⟨e, rfl, ⟨key, hkey, fun h => ?_⟩, t, ?_, .inl htext⟩
      · have hok := h.2 t ht
        rw [htext] at hok
        cases hok
      · exact (mem_covered.mp (newestOf_mem ht).1).1
    | ok texts =>
      left
      refine ⟨_, rfl, fun key hkey => ⟨⟨fun t ht => ?_, fun t ht => ?_⟩, ?_⟩⟩
      · rw [hnone t (covered_subset hkey ht)]
        rfl
      · have hmem : (key, t) ∈ keys.filterMap fun key => (newestTick log since key).map (key, ·) :=
          List.mem_filterMap.mpr ⟨key, hkey, by rw [Option.mem_def.mp ht]; rfl⟩
        obtain ⟨y, -, hy⟩ := exists_of_mapM_eq_ok hm hmem
        cases htext : t.text with
        | ok v => rfl
        | error e =>
          rw [htext] at hy
          cases hy
      · rw [texts_of_mapM hm, lookup_filterMap (newestText log since), if_pos hkey]

theorem newestTexts_of_handedOver (h : ∀ key ∈ keys, HandedOver log since key) :
    ∃ found, newestTexts log since keys = .ok found ∧ ∀ key ∈ keys,
      found key = newestText log since key := by
  rcases newestTexts_cases log since keys with ⟨found, hfound, hkeys⟩ | ⟨e, -, ⟨key, hkey, hnot⟩, -⟩
  · exact ⟨found, hfound, fun key hkey => (hkeys key hkey).2⟩
  · exact absurd (h key hkey) hnot

theorem newestTexts_singleton (h : HandedOver log since key) :
    ∃ found, newestTexts log since [key] = .ok found ∧ found key = newestText log since key := by
  have hall : ∀ k ∈ [key], HandedOver log since k := by
    intro k hk
    rwa [List.mem_singleton.mp hk]
  obtain ⟨found, hfound, hkeys⟩ := newestTexts_of_handedOver hall
  exact ⟨found, hfound, hkeys key List.mem_cons_self⟩

theorem local_fetchLatest (hon : m.TicksReadOn log) :
    Local m.canReadOn (m.fetchLatest log since) m.fetchFailed := by
  constructor
  · intro keys e h
    unfold fetchLatest at h
    rcases newestTexts_cases log since keys with ⟨found, hn, -⟩ | ⟨e', hn, -, t, ht, hte⟩
    · rw [hn] at h
      cases h
    · rw [hn] at h
      cases h
      exact hon t ht e hte
  · intro e h
    have hall : ∀ key ∈ ([] : List κ), HandedOver log since key :=
      fun key hkey => absurd hkey List.not_mem_nil
    obtain ⟨found, hfound, -⟩ := newestTexts_of_handedOver hall
    unfold fetchLatest at h
    rw [hfound] at h
    cases h
  · intro keys found h key
    unfold fetchLatest at h
    rcases newestTexts_cases log since keys with ⟨texts, hn, hkeys⟩ | ⟨e, hn, -⟩
    · rw [hn] at h
      cases h
      constructor
      · intro hkey
        obtain ⟨hhanded, htext⟩ := hkeys key hkey
        obtain ⟨one, hone, honly⟩ := newestTexts_singleton hhanded
        refine ⟨fun k => if k ∈ [key] then some (m.tickRead (one k)) else none, ?_, ?_⟩
        · unfold fetchLatest
          rw [hone]
          rfl
        · dsimp only
          rw [if_pos List.mem_cons_self, if_pos hkey, honly, htext]
      · exact fun hkey => if_neg hkey
    · rw [hn] at h
      cases h
  · intro key e _
    exact ⟨_, rfl, fun other hother => if_neg hother⟩

/-- What a key is answered. -/
def keyAnswer (log : List (LoggedTick κ ν ε)) (since : Option ℤ) (key : κ) : TickRead ω ε :=
  match newestTexts log since [key] with
  | .ok found => m.tickRead (found key)
  | .error e => .unreadable ("scheduled_for " ++ m.errorText e) (.raised e)

theorem answerAlone_fetchLatest (key : κ) :
    answerAlone (m.fetchLatest log since) m.fetchFailed key = some (m.keyAnswer log since key) := by
  unfold answerAlone fetchLatest keyAnswer
  cases newestTexts log since [key] with
  | ok found => simp [Except.map]
  | error e => simp [Except.map, fetchFailed]

theorem latestStep_pos (wanted : ℕ) : 0 < m.latestStep wanted := by
  unfold latestStep
  split
  · omega
  · split <;> omega

/-- `latest_ticks` ends, and answers every key as it is answered by itself. -/
theorem latestTicks_eq (hon : m.TicksReadOn log) (keys : List κ) :
    m.latestTicks log keys since =
      .ok (keys.eraseDups.map fun key => (key, m.keyAnswer log since key)) := by
  unfold latestTicks
  have hlocal : Local m.canReadOn (m.fetchLatest log since) m.fetchFailed :=
    m.local_fetchLatest hon
  have hread := foldlM_readInHalves hlocal
    (slices (m.latestStep keys.eraseDups.length) keys.eraseDups) fun _ => none
  unfold latest
  dsimp only
  rw [hread]
  apply mapM_of_forall
  intro key hkey
  have hmem : key ∈ (slices (m.latestStep keys.eraseDups.length) keys.eraseDups).flatten := by
    rwa [flatten_slices (m.latestStep_pos _)]
  dsimp only
  rw [if_pos hmem, m.answerAlone_fetchLatest]
  rfl

theorem keyAnswer_absent (h : covered log since [key] = []) :
    m.keyAnswer log since key = .absent := by
  have hnone : newestTick log since key = none := by
    unfold newestTick
    rw [h]
    rfl
  have hhanded : HandedOver log since key := by
    constructor
    · rw [h]
      exact fun t ht => absurd ht List.not_mem_nil
    · rw [hnone]
      exact fun t ht => absurd ht (Option.not_mem_none t)
  obtain ⟨found, hfound, htext⟩ := newestTexts_singleton hhanded
  unfold keyAnswer
  rw [hfound]
  dsimp only
  rw [htext]
  unfold newestText
  rw [hnone]
  rfl

/-- A key that reads is answered with its newest tick. -/
theorem keyAnswer_reads (hreads : m.KeyReads log since key) (hne : covered log since [key] ≠ []) :
    ∃ t ∈ covered log since [key],
      (∀ u ∈ covered log since [key], u.scheduledFor ≤ t.scheduledFor) ∧
        ∃ text at', t.text = .ok text ∧ m.decodeDatetime text = .ok at' ∧
          m.keyAnswer log since key = .tick at' := by
  obtain ⟨hhanded, hdec⟩ := hreads
  cases hnew : newestTick log since key with
  | none => exact absurd (newestOf_eq_none hnew) hne
  | some t =>
    obtain ⟨ht, hnewest⟩ := newestOf_mem hnew
    have hok := hhanded.2 t hnew
    cases htext : t.text with
    | error e =>
      rw [htext] at hok
      cases hok
    | ok text =>
      have hnewestText : newestText log since key = some text := by
        unfold newestText
        rw [hnew, Option.bind_some, htext]
        rfl
      have hdecodes := hdec text hnewestText
      cases hat : m.decodeDatetime text with
      | error why =>
        rw [hat] at hdecodes
        cases hdecodes
      | ok at' =>
        refine ⟨t, ht, hnewest, text, at', htext, hat, ?_⟩
        obtain ⟨found, hfound, hkey⟩ := newestTexts_singleton hhanded
        unfold keyAnswer
        rw [hfound]
        dsimp only
        rw [hkey, hnewestText]
        unfold tickRead
        dsimp only
        rw [hat]

theorem keyAnswer_unreadable (h : ¬ m.KeyReads log since key) :
    ∃ reason cause, m.keyAnswer log since key = .unreadable reason cause := by
  unfold keyAnswer
  rcases newestTexts_cases log since [key] with ⟨found, hfound, hkeys⟩ | ⟨e, he, -⟩
  · rw [hfound]
    dsimp only
    obtain ⟨hhanded, htext⟩ := hkeys key List.mem_cons_self
    rw [htext]
    cases hnew : newestText log since key with
    | none =>
      refine absurd ⟨hhanded, ?_⟩ h
      rw [hnew]
      exact fun text ht => absurd ht (Option.not_mem_none text)
    | some text =>
      unfold tickRead
      dsimp only
      cases hat : m.decodeDatetime text with
      | error why => exact ⟨_, _, rfl⟩
      | ok at' =>
        refine absurd ⟨hhanded, ?_⟩ h
        intro text' htext'
        rw [hnew] at htext'
        cases htext'
        rw [hat]
        rfl
  · rw [he]
    exact ⟨_, _, rfl⟩

/-- The log without the ticks of the keys that do not read. -/
def withoutPoisoned (log : List (LoggedTick κ ν ε)) (since : Option ℤ) : List (LoggedTick κ ν ε) :=
  log.filter fun t => m.KeyReads log since t.scheduleName

theorem covered_withoutPoisoned (hreads : m.KeyReads log since key) :
    covered (m.withoutPoisoned log since) since [key] = covered log since [key] := by
  unfold covered withoutPoisoned
  rw [List.filter_filter]
  apply List.filter_congr
  intro t _
  rw [← Bool.decide_and, decide_eq_decide, List.mem_singleton]
  constructor
  · exact fun h => h.1
  · exact fun h => ⟨h, h.1 ▸ hreads⟩

theorem keyAnswer_withoutPoisoned (hreads : m.KeyReads log since key) :
    m.keyAnswer (m.withoutPoisoned log since) since key = m.keyAnswer log since key := by
  unfold keyAnswer newestTexts newestTick
  rw [m.covered_withoutPoisoned hreads]
  simp only [List.filterMap_cons, List.filterMap_nil, m.covered_withoutPoisoned hreads]

end ticks

theorem lookup_map {f : κ → TickRead ω ε} {l : List κ} {key : κ} (h : key ∈ l) :
    (l.map fun k => (k, f k)).lookup key = some (f key) := by
  have hmap : (l.map fun k => (k, f k)) = l.filterMap fun k => (some (f k)).map (k, ·) := by
    rw [← List.filterMap_eq_map]
    rfl
  rw [hmap, lookup_filterMap (fun k => some (f k)), if_pos h]

/-- Narrowing a failing read down loses nothing: a row or a key that reads is answered as if nothing
beside it were unreadable, one that does not is answered so, and one that is not there is left out or
absent. For a tick log that is said of the ticks the read covers. -/
theorem narrowing_loses_nothing [DecidableEq F] (m : StoredReader F ν ω ε)
    (rows : Table ℤ (StoredCells F ν ε)) (hrows : m.ReadsOn rows) (log : List (LoggedTick κ ν ε))
    (hlog : m.TicksReadOn log) :
    (∀ (held : α → ℤ) (pks : List α) (lock : Bool) (named : Option (List F)), ∃ answers,
      m.readSchedules rows held pks lock named = .ok answers ∧ ∀ pk ∈ pks,
        (rows.rows (held pk) = none → answers.lookup pk = none) ∧
        ∀ row, rows.rows (held pk) = some row →
          (m.RowReads (m.selected named) row →
            answers.lookup pk = some (.schedule (m.readValues (m.selected named) row)) ∧
            ∃ clean, m.readSchedules (rows.only fun _ row => m.RowReads (m.selected named) row) held
              pks lock named = .ok clean ∧ clean.lookup pk = answers.lookup pk) ∧
          (¬ m.RowReads (m.selected named) row → ∃ unreadable values cause,
            answers.lookup pk = some (.unreadableRow (held pk) unreadable values cause) ∧
            ∀ f, (∃ why, (f, why) ∈ unreadable) ↔
              f ∈ m.selected named ∧ m.cellReads row f = false)) ∧
    ∀ (keys : List κ) (since : Option ℤ), ∃ answers,
      m.latestTicks log keys since = .ok answers ∧ ∀ key ∈ keys,
        (covered log since [key] = [] → answers.lookup key = some .absent) ∧
        (covered log since [key] ≠ [] → m.KeyReads log since key →
          (∃ t ∈ covered log since [key],
            (∀ u ∈ covered log since [key], u.scheduledFor ≤ t.scheduledFor) ∧
              ∃ text at', t.text = .ok text ∧ m.decodeDatetime text = .ok at' ∧
                answers.lookup key = some (.tick at')) ∧
          ∃ clean, m.latestTicks (m.withoutPoisoned log since) keys since = .ok clean ∧
            clean.lookup key = answers.lookup key) ∧
        (¬ m.KeyReads log since key → ∃ reason cause,
          answers.lookup key = some (.unreadable reason cause)) := by
  constructor
  · intro held pks lock named
    refine ⟨_, m.readSchedules_eq hrows held pks lock named, ?_⟩
    intro pk hpk
    have hmem : pk ∈ pks.eraseDups := List.mem_eraseDups.mpr hpk
    have hlookup (rows : Table ℤ (StoredCells F ν ε)) : (pks.eraseDups.filterMap fun pk =>
        ((rows.rows (held pk)).map (m.rowAnswer (m.selected named) (held pk))).map (pk, ·)).lookup pk =
        (rows.rows (held pk)).map (m.rowAnswer (m.selected named) (held pk)) := by
      rw [lookup_filterMap (fun pk =>
        (rows.rows (held pk)).map (m.rowAnswer (m.selected named) (held pk))), if_pos hmem]
    rw [hlookup]
    constructor
    · intro hnone
      rw [hnone]
      rfl
    · intro row hrow
      rw [hrow, Option.map_some, m.rowAnswer_eq]
      constructor
      · intro hreads
        rw [if_pos hreads]
        refine ⟨rfl, ?_⟩
        have honly : m.ReadsOn (rows.only fun _ row => m.RowReads (m.selected named) row) := by
          intro k r hr
          exact hrows k r (Option.filter_eq_some_iff.mp hr).1
        refine ⟨_, m.readSchedules_eq honly held pks lock named, ?_⟩
        rw [hlookup, Table.rows_only hrow, if_pos hreads, Option.map_some, m.rowAnswer_eq,
          if_pos hreads]
      · intro hreads
        rw [if_neg hreads]
        exact ⟨_, _, _, rfl, fun f => m.mem_unreadFields⟩
  · intro keys since
    refine ⟨_, m.latestTicks_eq hlog keys, ?_⟩
    intro key hkey
    have hmem : key ∈ keys.eraseDups := List.mem_eraseDups.mpr hkey
    rw [lookup_map hmem]
    refine ⟨?_, ?_, ?_⟩
    · intro hnone
      rw [m.keyAnswer_absent hnone]
    · intro hne hreads
      constructor
      · obtain ⟨t, ht, hnewest, text, at', htext, hat, hanswer⟩ := m.keyAnswer_reads hreads hne
        exact ⟨t, ht, hnewest, text, at', htext, hat, by rw [hanswer]⟩
      · have hclean : m.TicksReadOn (m.withoutPoisoned log since) :=
          fun t ht => hlog t (List.mem_filter.mp ht).1
        refine ⟨_, m.latestTicks_eq hclean keys, ?_⟩
        rw [lookup_map hmem, m.keyAnswer_withoutPoisoned hreads]
    · intro hreads
      obtain ⟨reason, cause, hanswer⟩ := m.keyAnswer_unreadable hreads
      exact ⟨reason, cause, by rw [hanswer]⟩

/-- A reader of one column that holds numbers, where a negative one does not decode. -/
def plainReader : StoredReader Unit ℤ ℤ String where
  concreteFields := [()]
  primaryKey := ()
  decode _ v := if 0 ≤ v then .ok v else .error "is not a date and time"
  decodeDatetime v := if 0 ≤ v then .ok v else .error "is not a date and time"
  errorText e := e
  canReadOn _ := true
  maxQueryParams := some 2

/-- A driver that refuses the newest tick of one key and an older one of another. -/
def refusedLog : List (LoggedTick ℕ ℤ String) :=
  [{ scheduleName := 0, scheduledFor := 10, text := .ok 10 },
    { scheduleName := 0, scheduledFor := 5, text := .error "could not be read" },
    { scheduleName := 1, scheduledFor := 20, text := .error "could not be read" },
    { scheduleName := 2, scheduledFor := 30, text := .ok (-1) }]

/-- A log of one tick, which does not decode. -/
def undecodedLog : List (LoggedTick ℕ ℤ String) :=
  [{ scheduleName := 0, scheduledFor := -5, text := .ok (-1) }]

theorem narrowing_loses_nothing_refused : ∃ answers,
    plainReader.latestTicks refusedLog [0, 1, 2, 3] none = .ok answers ∧
      answers.lookup 0 = some (.tick 10) ∧ answers.lookup 3 = some .absent ∧
      ∃ reason cause, answers.lookup 1 = some (.unreadable reason cause) := by
  have hrows : plainReader.ReadsOn (Table.single 1 fun _ => .ok 1) := fun _ _ _ _ _ _ => rfl
  have hlog : plainReader.TicksReadOn refusedLog := fun _ _ _ _ => rfl
  obtain ⟨-, hticks⟩ :=
    @narrowing_loses_nothing ℤ ℕ Unit ℤ ℤ String _ _ _ plainReader
      (Table.single 1 fun _ => .ok 1) hrows refusedLog hlog
  obtain ⟨answers, heq, hanswers⟩ := hticks [0, 1, 2, 3] none
  refine ⟨answers, heq, ?_, (hanswers 3 (by decide)).1 (by rfl),
    (hanswers 1 (by decide)).2.2 (by decide)⟩
  obtain ⟨⟨t, ht, hnewest, text, at', htext, hat, hanswer⟩, -⟩ :=
    (hanswers 0 (by decide)).2.1 (by simp [covered, refusedLog]) (by decide)
  rcases List.mem_cons.mp ht with rfl | ht
  · cases htext
    cases hat
    exact hanswer
  · rw [List.mem_singleton.mp ht] at htext
    cases htext

/-- With `since`, a key whose one tick is older and does not read is answered as absent. -/
theorem poisoned_tick_absent : ¬ ∀ (m : StoredReader Unit ℤ ℤ String)
    (log : List (LoggedTick ℕ ℤ String)) (keys : List ℕ) (since : Option ℤ), m.TicksReadOn log →
    ∃ answers, m.latestTicks log keys since = .ok answers ∧ ∀ key ∈ keys,
      (∃ t ∈ log, t.scheduleName = key) →
      (∀ t ∈ log, t.scheduleName = key → ∀ text, t.text = .ok text →
        (m.decodeDatetime text).isOk = false) →
      ∃ reason cause, answers.lookup key = some (.unreadable reason cause) := by
  intro h
  have hlog : plainReader.TicksReadOn undecodedLog := fun _ _ _ _ => rfl
  obtain ⟨answers, heq, hanswers⟩ := h plainReader undecodedLog [0] (some 0) hlog
  have hunreadable : ∀ t ∈ undecodedLog, t.scheduleName = 0 →
      ∀ text, t.text = .ok text → (plainReader.decodeDatetime text).isOk = false := by
    intro t ht _ text htext
    obtain rfl := List.mem_singleton.mp ht
    cases htext
    rfl
  obtain ⟨reason, cause, hanswer⟩ := hanswers 0 (by decide) ⟨_, List.mem_singleton_self _, rfl⟩ hunreadable
  rw [plainReader.latestTicks_eq hlog] at heq
  cases heq
  rw [lookup_map (List.mem_eraseDups.mpr (List.mem_singleton_self 0)),
    plainReader.keyAnswer_absent (by rfl)] at hanswer
  cases hanswer

end StoredReader

end DjangoOx
