import DjangoOx.Machine.Run
import DjangoOx.Prune.Ticks
import Mathlib.Order.Lattice

/-! Runs of `ox_prune` and workers on one tick log, a statement at a time. -/
namespace DjangoOx

open Machine
open scoped Machine.Keys

variable {κ : Type} [LinearOrder κ]

/-- Where a run goes on once it knows a key's newest tick that reads: the other keys, or the rest of
the page whose row has the key. -/
inductive LookupGoal (κ : Type)
  | keys (rest : List κ)
  | batch (rest old : List (StoredTick κ)) (last : ℕ) (full : Bool)

/-- What the rows being read are. -/
inductive TickReader (κ : Type)
  | window (name : κ) (offset size : ℕ) (goal : LookupGoal κ)
  | page

/-- Where a run stands. The rows of a read come one by one, as they do once one of them has failed
it; a read in one statement is that without a statement between. -/
inductive PrunePhase (κ : Type)
  | idle
  | keys (rest : List κ)
  | lookup (name : κ) (offset size : ℕ) (goal : LookupGoal κ)
  | reading (todo : List ℕ) (got : List (StoredTick κ)) (reader : TickReader κ)
  | paging (after : Option ℕ)
  | sorting (rest old : List (StoredTick κ)) (last : ℕ) (full : Bool)
  | older (old : List (StoredTick κ)) (pks : List ℕ) (last : ℕ) (full : Bool)
  | doomed (pks : List ℕ) (last : ℕ) (full : Bool)

/-- A run of `_prune_ticks` and what it carries from row to row. -/
structure PruneRun (κ : Type) where
  cutoff : ℤ
  batchSize : ℕ
  phase : PrunePhase κ
  anchors : κ → Option ℕ
  protectedPks : List ℕ
  unanchored : List κ

/-- The tick log, every row it ever held, and the runs. -/
structure PruneRace (κ : Type) where
  log : List (StoredTick κ)
  ever : List (StoredTick κ)
  runs : ℕ → PruneRun κ

/-- A worker commits a tick; a run begins with the keys its first read answers, makes its next
statement or step, or ends where it is. -/
inductive PruneAction (κ : Type)
  | commit (row : StoredTick κ)
  | begin (r : ℕ) (cutoff : ℤ) (batchSize : ℕ) (keys : List κ)
  | next (r : ℕ)
  | stop (r : ℕ)

namespace PruneRun

/-- No run. -/
def ended : PruneRun κ := ⟨0, 1, .idle, fun _ => none, [], []⟩

/-- A run that has read the keys. -/
def begun (cutoff : ℤ) (batchSize : ℕ) (keys : List κ) : PruneRun κ :=
  ⟨cutoff, batchSize, .keys keys, fun _ => none, [], []⟩

def LookupGoal.phase : LookupGoal κ → PrunePhase κ
  | .keys rest => .keys rest
  | .batch rest old last full => .sorting rest old last full

/-- A key's newest tick that reads is known. -/
def found (run : PruneRun κ) (name : κ) (pk : ℕ) (goal : LookupGoal κ) : PruneRun κ :=
  { run with
    anchors := Function.update run.anchors name (some pk)
    protectedPks := run.protectedPks ++ [pk]
    phase := LookupGoal.phase goal }

/-- No tick of a key reads. Only a key met in a batch is noted. -/
def missing (run : PruneRun κ) (name : κ) : LookupGoal κ → PruneRun κ
  | .keys rest => { run with phase := .keys rest }
  | .batch rest old last full =>
    { run with unanchored := run.unanchored ++ [name], phase := .sorting rest old last full }

/-- The rows of a read are there. -/
def read (run : PruneRun κ) (got : List (StoredTick κ)) : TickReader κ → PruneRun κ
  | .window name offset size goal =>
    match (got.find? fun row => !row.unreadable) with
    | some row => run.found name row.pk goal
    | none =>
      if got.length < size then run.missing name goal
      else { run with phase := .lookup name (offset + got.length) run.batchSize goal }
  | .page =>
    match got.getLast? with
    | none => ended
    | some last => { run with phase := .sorting got [] last.pk (run.batchSize ≤ got.length) }

/-- One row of a page. -/
def sort (col : KeyColumn κ) (run : PruneRun κ) (row : StoredTick κ)
    (rest old : List (StoredTick κ)) (last : ℕ) (full : Bool) : PruneRun κ :=
  if row.unreadable then { run with phase := .sorting rest old last full }
  else if run.anchors (row.key col) = none ∧ row.key col ∉ run.unanchored then
    { run with phase := .lookup (row.key col) 0 1 (.batch (row :: rest) old last full) }
  else if row.pk ∈ run.protectedPks then { run with phase := .sorting rest old last full }
  else { run with phase := .sorting rest (old ++ [row]) last full }

/-- A run's next step on a log, and the log after it. -/
def next (col : KeyColumn κ) (log : List (StoredTick κ)) (run : PruneRun κ) :
    PruneRun κ × List (StoredTick κ) :=
  match run.phase with
  | .idle => (run, log)
  | .keys [] => ({ run with phase := .paging none }, log)
  | .keys (name :: rest) => ({ run with phase := .lookup name 0 1 (.keys rest) }, log)
  | .lookup name offset size goal =>
    let pks := (((col.newestFirst log name).drop offset).take size).map (·.pk)
    ({ run with phase := .reading pks [] (.window name offset size goal) }, log)
  | .reading [] got reader => (run.read got reader, log)
  | .reading (pk :: todo) got reader =>
    let row := log.find? fun row => row.pk = pk
    ({ run with phase := .reading todo (got ++ row.toList) reader }, log)
  | .paging after =>
    let pks := (selectedPage log run.cutoff after run.batchSize).map (·.pk)
    ({ run with phase := .reading pks [] .page }, log)
  | .sorting (row :: rest) old last full => (run.sort col row rest old last full, log)
  | .sorting [] old last full =>
    let pks := olderThanTheirAnchor col log old run.anchors
    ({ run with phase := .older old pks last full }, log)
  | .older old older last full =>
    let newestNow := newestOfTheirSchedules col log
      ((old.filter fun row => row.pk ∉ older).map (·.pk))
    let pks := (old.filter fun row => row.pk ∉ newestNow).map (·.pk)
    ({ run with phase := .doomed pks last full }, log)
  | .doomed pks last full =>
    (if full then { run with phase := .paging (some last) } else ended, (deleteTicks log pks).1)

end PruneRun

/-- Any log with its keys unique, and no run. -/
def pruneRace (col : KeyColumn κ) : System (PruneRace κ) (PruneAction κ) where
  init s := TickKeys col s.log ∧ s.ever = s.log ∧ ∀ r, s.runs r = PruneRun.ended
  step s
    | .commit row =>
      if row.unreadable = false ∧ row.pk ∉ s.ever.map (·.pk) ∧
          (∀ r ∈ s.log, col.same row r → row.scheduledFor ≠ r.scheduledFor) then
        some { s with log := s.log ++ [row], ever := s.ever ++ [row] }
      else none
    | .begin r cutoff batchSize keys =>
      match (s.runs r).phase with
      | .idle =>
        if 0 < batchSize then
          some { s with runs := Function.update s.runs r (.begun cutoff batchSize keys) }
        else none
      | _ => none
    | .next r =>
      let (run, log) := (s.runs r).next col s.log
      some { s with log, runs := Function.update s.runs r run }
    | .stop r => some { s with runs := Function.update s.runs r PruneRun.ended }

end DjangoOx
