import DjangoOx.Schedule.Stored

/-! Stored schedules that may hold values that do not read: what a change, a pause and a heal of one
write. -/
namespace DjangoOx

/-- The columns of `OxSchedule` beside its key. -/
inductive Column
  | name
  | taskKey
  | trigger
  | cron
  | everySeconds
  | phaseSeconds
  | arguments
  | enabled
  | startTime
  | endTime
  | startingDeadlineSeconds
  | boundaryFor
  | boundaryGeneration
  | createdAt
  | updatedAt
  deriving DecidableEq, Repr

/-- TIMING_FIELDS -/
def timingFields : List Column := [.trigger, .cron, .everySeconds, .phaseSeconds]

/-- `_READ_TO_PAUSE` -/
def readToPause : List Column :=
  [.trigger, .cron, .everySeconds, .phaseSeconds, .enabled, .taskKey, .boundaryFor,
    .boundaryGeneration]

/-- `_WRITTEN_HERE` -/
def writtenHere : List Column := [.updatedAt, .startTime, .boundaryFor]

/-- The columns a call gives. -/
def Fields.given (f : Fields) : List Column :=
  (if f.name.isSome then [.name] else []) ++ (if f.taskKey.isSome then [.taskKey] else []) ++
  (if f.trigger.isSome then [.trigger] else []) ++ (if f.cron.isSome then [.cron] else []) ++
  (if f.everySeconds.isSome then [.everySeconds] else []) ++
  (if f.phaseSeconds.isSome then [.phaseSeconds] else []) ++
  (if f.arguments.isSome then [.arguments] else []) ++
  (if f.enabled.isSome then [.enabled] else []) ++ (if f.endTime.isSome then [.endTime] else []) ++
  (if f.startingDeadlineSeconds.isSome then [.startingDeadlineSeconds] else [])

/-- What the rows are read with, and the maximum of the column that counts the boundary writes. -/
structure Reader extends Deployment where
  countMax : ℕ

/-- A row as it is stored. -/
structure StoredRow where
  values : OxSchedule
  /-- The columns that do not read; `values` says nothing of them. -/
  unread : List Column
  /-- The columns of BOUNDARY_FIELDS that read and whose field refuses what they hold, so that no
  digest can be taken. -/
  refused : List Column
  deriving DecidableEq, Repr

/-- What a write leaves of a row, and the columns it wrote. -/
structure RowWrite where
  row : StoredRow
  written : List Column
  deriving DecidableEq, Repr

/-- The boundary of a row as a worker found it stale. -/
structure Sighting where
  boundaryFor : String
  startTime : ℤ
  boundaryGeneration : ℕ
  deriving DecidableEq, Repr

def OxSchedule.boundary (row : OxSchedule) : Sighting :=
  ⟨row.boundaryFor, row.startTime, row.boundaryGeneration⟩

/-- What a heal does with the sighting it is about. -/
inductive HealResult
  | dropped
  | superseded
  | moved (w : RowWrite)

namespace StoredRow

/-- What a guarded read of the row names. A count at its maximum does not read. -/
def unreadFields (d : Reader) (r : StoredRow) : List Column :=
  if d.countMax ≤ r.values.boundaryGeneration then .boundaryGeneration :: r.unread else r.unread

/-- The row after its columns are saved: what was written reads. -/
def save (r : StoredRow) (values : OxSchedule) (written : List Column) : RowWrite :=
  ⟨⟨values, r.unread.filter (· ∉ written), r.refused.filter (· ∉ written)⟩, written⟩

/-- `update_schedule` past its pause. `may` is the permission on the row as it stands, `valid` the
validation and the permission on the row as it will be. -/
def change (d : Reader) (may : Bool) (valid : OxSchedule → Bool) (r : StoredRow) (f : Fields)
    (now : ℤ) : Option RowWrite :=
  let unread := r.unreadFields d
  let kept := unread.filter fun c => c ∉ f.given ∧ c ∉ writtenHere
  if may = false ∨ kept ≠ [] ∨ unread = [] ∧ r.refused ≠ [] then none
  else
    let row := r.values
    let changed := row.setFields f
    let retimed := changed.timing ≠ row.timing
    let resumed := changed.enabled = true ∧ row.enabled = false
    let stale := row.boundaryFor ≠ row.digest d.toDeployment
    let fresh := unread ≠ [] ∨ retimed ∨ resumed ∨ stale
    let changed := if fresh then changed.rebounded now else changed
    let written := f.given ++ [.updatedAt, .boundaryFor] ++
      if fresh then [.startTime, .boundaryGeneration] else []
    if r.refused.filter (· ∉ f.given) = [] ∧ valid changed then
      some (r.save { changed with boundaryFor := changed.digest d.toDeployment } written)
    else none

/-- What a pause finds unread of what it reads. -/
def unreadToPause (d : Reader) (r : StoredRow) : List Column :=
  (r.unreadFields d).filter (· ∈ readToPause)

/-- The timing reads, so that a digest can be taken. -/
def TimingReads (d : Reader) (r : StoredRow) : Prop :=
  ∀ c ∈ r.unreadToPause d, c ∉ timingFields

instance (d : Reader) (r : StoredRow) : Decidable (r.TimingReads d) :=
  inferInstanceAs (Decidable (∀ c ∈ r.unreadToPause d, c ∉ timingFields))

/-- The boundary is over an `enabled` or a digest that does not read. -/
def Unsure (d : Reader) (r : StoredRow) : Prop :=
  Column.enabled ∈ r.unreadToPause d ∨ Column.boundaryFor ∈ r.unreadToPause d

instance (d : Reader) (r : StoredRow) : Decidable (r.Unsure d) :=
  inferInstanceAs (Decidable (_ ∨ _))

/-- A digest that the pause takes raises. -/
def PauseRefused (d : Reader) (r : StoredRow) : Prop :=
  r.TimingReads d ∧
    (if r.Unsure d then r.refused.filter (· ≠ Column.enabled) else r.refused) ≠ []

instance (d : Reader) (r : StoredRow) : Decidable (r.PauseRefused d) :=
  inferInstanceAs (Decidable (_ ∧ _))

/-- The boundary that a pause finds is stale, or cannot be said to be current. -/
def StaleToPause (d : Reader) (r : StoredRow) : Prop :=
  r.TimingReads d ∧ (r.Unsure d ∨ r.values.boundaryFor ≠ r.values.digest d.toDeployment)

instance (d : Reader) (r : StoredRow) : Decidable (r.StaleToPause d) :=
  inferInstanceAs (Decidable (_ ∧ _))

/-- The count reads, and so can be moved. -/
def Counted (d : Reader) (r : StoredRow) : Prop := Column.boundaryGeneration ∉ r.unreadToPause d

instance (d : Reader) (r : StoredRow) : Decidable (r.Counted d) :=
  inferInstanceAs (Decidable (_ ∉ _))

def paused (row : OxSchedule) : OxSchedule := { row with enabled := false }

/-- The digest of a paused row, and the column it is written to. -/
def digested (d : Deployment) (row : OxSchedule) : OxSchedule :=
  { paused row with boundaryFor := (paused row).digest d }

/-- `_disable` -/
def disable (d : Reader) (may : Bool) (r : StoredRow) (now : ℤ) : Option RowWrite :=
  if may = false ∨ r.PauseRefused d then none
  else if r.StaleToPause d then
    if r.Counted d then
      some (r.save ((digested d.toDeployment r.values).rebounded now)
        [.enabled, .updatedAt, .startTime, .boundaryGeneration, .boundaryFor])
    else some (r.save (paused r.values) [.enabled, .updatedAt])
  else
    let values := if r.TimingReads d then digested d.toDeployment r.values else paused r.values
    let written := [.enabled, .updatedAt] ++ if r.TimingReads d then [.boundaryFor] else []
    if r.unreadToPause d ≠ [] ∧ r.Counted d then
      -- the count moves and the boundary does not
      some (r.save { values with boundaryGeneration := values.boundaryGeneration + 1 }
        (.boundaryGeneration :: written))
    else some (r.save values written)

def updateSchedule (d : Reader) (may : Bool) (valid : OxSchedule → Bool) (r : StoredRow)
    (f : Fields) (now : ℤ) : Option RowWrite :=
  if f = { enabled := some false } then r.disable d may now else r.change d may valid f now

/-- `_heal` of one sighting, on the row as it is under its lock, with the clock read there. -/
def heal (d : Reader) (r : StoredRow) (observed : Sighting) (now : ℤ) : HealResult :=
  if r.unreadFields d ≠ [] then .dropped
  else if r.values.boundary ≠ observed then .superseded
  else if r.refused ≠ [] then .dropped
  else .moved (r.save
    { r.values.rebounded now with boundaryFor := r.values.digest d.toDeployment }
    [.startTime, .boundaryFor, .boundaryGeneration])

/-- The row reads, and its digest can be taken. -/
def Reads (d : Reader) (r : StoredRow) : Prop := r.unreadFields d = [] ∧ r.refused = []

instance (d : Reader) (r : StoredRow) : Decidable (r.Reads d) :=
  inferInstanceAs (Decidable (_ ∧ _))

/-- What a full read, or the read at dispatch, keeps of a row it finds stale. -/
def sight (d : Reader) (r : StoredRow) : Option Sighting :=
  if r.Reads d ∧ r.values.boundaryFor ≠ r.values.digest d.toDeployment then some r.values.boundary
  else none

/-- `_current` -/
def current (d : Reader) (registered : String → String → Bool) (r : StoredRow) : Option Schedule :=
  if r.Reads d then r.values.current d.toDeployment registered else none

variable {d : Reader} {may : Bool} {valid : OxSchedule → Bool} {r : StoredRow} {f : Fields}
  {w : RowWrite} {now : ℤ} {observed : Sighting}

/-- A write counts the boundary write that it makes, and leaves a boundary alone otherwise. -/
def Counts (r : StoredRow) (w : RowWrite) (now : ℤ) : Prop :=
  if Column.startTime ∈ w.written then
    w.row.values.startTime = now ∧ r.values.boundaryGeneration < w.row.values.boundaryGeneration
  else
    w.row.values.startTime = r.values.startTime ∧
      r.values.boundaryGeneration ≤ w.row.values.boundaryGeneration

theorem given_startTime (f : Fields) : Column.startTime ∉ f.given := by
  unfold Fields.given
  simp

theorem change_counts (h : r.change d may valid f now = some w) : r.Counts w now := by
  unfold change at h
  obtain ⟨-, h⟩ := Option.ite_none_left_eq_some.mp h
  obtain ⟨-, h⟩ := Option.ite_none_right_eq_some.mp h
  obtain rfl := Option.some.inj h
  unfold Counts save
  simp only [List.mem_append, given_startTime, false_or]
  split_ifs <;> simp_all [OxSchedule.rebounded, OxSchedule.setFields]

theorem disable_counts (h : r.disable d may now = some w) : r.Counts w now := by
  unfold disable at h
  obtain ⟨-, h⟩ := Option.ite_none_left_eq_some.mp h
  unfold Counts
  split_ifs at h <;> obtain rfl := Option.some.inj h <;> split_ifs <;>
    simp_all [save, OxSchedule.rebounded, digested, paused]

theorem updateSchedule_counts (h : r.updateSchedule d may valid f now = some w) :
    r.Counts w now := by
  unfold updateSchedule at h
  split_ifs at h with hf
  · exact disable_counts h
  · exact change_counts h

theorem heal_moved (h : r.heal d observed now = .moved w) :
    r.Reads d ∧ r.values.boundary = observed ∧ r.Counts w now ∧ Column.startTime ∈ w.written := by
  unfold heal at h
  split_ifs at h with hunread hobs href
  cases h
  refine ⟨⟨not_not.mp hunread, not_not.mp href⟩, not_not.mp hobs, ?_, by simp [save]⟩
  unfold Counts save
  simp [OxSchedule.rebounded]

end StoredRow

end DjangoOx
