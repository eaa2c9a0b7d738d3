import DjangoOx.Machine.Custody
import DjangoOx.Machine.Dict
import DjangoOx.Machine.Page
import DjangoOx.Machine.Run
import Mathlib.Data.List.Sort
import Mathlib.Order.Lattice

/-! The skip queues, and the row each shares with the place of its workflow's backstop pass. Every
statement is a step of its own. -/
namespace DjangoOx

open Machine
open scoped Machine.Keys

/-- SKIP_QUEUE_LIMIT -/
def skipQueueLimit : ℕ := 100

/-- SKIP_QUEUE_ATTEMPTS -/
def skipQueueAttempts : ℕ := 5

/-- ID_CHUNK_SIZE -/
def idChunkSize : ℕ := 1000

/-- OxpullWorkflowScan.Phase -/
inductive ScanPhase
  | edges
  | nodes
  | release
  deriving DecidableEq, Repr

/-- Where a pass stands. -/
structure Place where
  phase : ScanPhase
  position : ℕ
  edgeHwm : Option ℕ
  nodeHwm : Option ℕ
  deriving DecidableEq, Repr

/-- AT_REST -/
def Place.atRest : Place := ⟨.edges, 0, none, none⟩

/-- OxpullWorkflowScan -/
structure WorkflowScan (ι : Type) where
  place : Place
  skipped : List ι
  version : ℕ
  deriving DecidableEq, Repr

/-- Why an id was not queued, as the log line says. -/
inductive DropReason
  /-- workflow_release_skip_overflow -/
  | overflow
  /-- workflow_release_skip_unqueued -/
  | unqueued
  deriving DecidableEq, Repr

/-- A call of `queue_skipped`. -/
inductive SkipAdd (W ι : Type)
  | idle
  /-- The workflows whose ids are still to be added. -/
  | calling (rest : List (W × List ι))
  | trying (workflow : W) (ids : List ι) (left : ℕ) (rest : List (W × List ι))
  /-- `row` is what the queue and its version were, `none` for no row. -/
  | merging (workflow : W) (ids : List ι) (left : ℕ) (rest : List (W × List ι))
      (row : Option (List ι × ℕ))
  deriving DecidableEq, Repr

/-- A call of `_take_skipped`. -/
inductive SkipTake (W ι : Type)
  | idle
  | read (queues : List (W × List ι × ℕ))
  | taking (queues : List (W × List ι × ℕ)) (taken : List ι)
  | returned (taken : List ι)
  deriving DecidableEq, Repr

/-- A visit of the backstop, as it stores its place. -/
inductive ScanVisit (W : Type)
  | idle
  | placed (workflow : W) (stored : Place)
  | creating (workflow : W) (place : Place)
  deriving DecidableEq, Repr

structure SkipState (W ι : Type) where
  scans : Dict W (WorkflowScan ι)
  adds : ℕ → SkipAdd W ι
  takes : ℕ → SkipTake W ι
  visits : ℕ → ScanVisit W
  /-- Every id an add left in a queue, and every id a take got. -/
  moves : List (Move ℕ (W × ι))
  /-- What the log lines of the adds are about. -/
  dropped : List (ℕ × W × ι × DropReason)
  /-- The adds that are done, with the ids they were given. -/
  finished : List (ℕ × W × List ι)

inductive SkipAction (W ι : Type)
  /-- `nodes` is what the lookup of the ids finds among the node rows. -/
  | queueSkipped (add : ℕ) (nodes : List (W × ι)) (ids : List ι)
  | addNext (add : ℕ)
  | addRead (add : ℕ)
  | addWrite (add : ℕ)
  | addGiveUp (add : ℕ)
  | takeRead (take : ℕ)
  /-- `after` is the workflow the round last visited. -/
  | takeRound (take : ℕ) (after : Option W)
  | takeNext (take : ℕ)
  | visit (visit : ℕ) (workflow : W)
  | storeScan (visit : ℕ) (place : Place)
  | createScan (visit : ℕ)
  | leave (visit : ℕ)
  /-- A workflow that is COMPLETE has no scan row. -/
  | complete (workflow : W)
  deriving DecidableEq, Repr

/-- The part of `_store_scan`. -/
def SkipAction.storesPlace {W ι : Type} : SkipAction W ι → Bool
  | .storeScan _ _ | .createScan _ => true
  | _ => false

variable {W ι : Type} [LinearOrder W] [LinearOrder ι]

/-- The adds a call of `queue_skipped` makes: the ids that are nodes, by workflow. -/
def skipAdds (nodes : List (W × ι)) (ids : List ι) : List (W × List ι) :=
  let found := nodes.filter (·.2 ∈ ids)
  ((found.map Prod.fst).eraseDups.insertionSort (· ≤ ·)).map fun w =>
    (w, ((found.filter (·.1 = w)).map Prod.snd).insertionSort (· ≤ ·))

/-- `dict.fromkeys([*queued, *ids])` -/
def mergeSkipped (queued ids : List ι) : List ι := (queued ++ ids).eraseDups

/-- The queues from the first one after the round's workflow on, wrapping. -/
def roundFrom (after : Option W) (queues : List (W × List ι × ℕ)) : List (W × List ι × ℕ) :=
  match after with
  | none => queues
  | some after => queues.dropWhile (·.1 ≤ after) ++ queues.takeWhile (·.1 ≤ after)

namespace SkipState

variable (s : SkipState W ι)

/-- The ids in a workflow's queue. -/
def queue (w : W) : List ι :=
  ((s.scans.get? w).map WorkflowScan.skipped).getD []

def setAdd (a : ℕ) (x : SkipAdd W ι) : SkipState W ι :=
  { s with adds := Function.update s.adds a x }

def setTake (t : ℕ) (x : SkipTake W ι) : SkipState W ι :=
  { s with takes := Function.update s.takes t x }

def setVisit (v : ℕ) (x : ScanVisit W) : SkipState W ι :=
  { s with visits := Function.update s.visits v x }

def setScan (w : W) (r : WorkflowScan ι) : SkipState W ι :=
  { s with scans := s.scans.set w r }

/-- The scan row an add's write leaves, `none` when the write loses to another. -/
def mergedScan (w : W) (kept : List ι) : Option (List ι × ℕ) → Option (WorkflowScan ι)
  | none => if (s.scans.get? w).isSome then none else some ⟨.atRest, kept, 0⟩
  | some (_, version) =>
    (s.scans.get? w).bind fun r =>
      if r.version = version then some { r with skipped := kept, version := version + 1 } else none

/-- An add that wrote: what it kept of its ids is in the queue, and the rest is logged. -/
def addDone (a : ℕ) (w : W) (ids kept overflow : List ι) (r : WorkflowScan ι) : SkipState W ι :=
  { s.setScan w r with
    moves := s.moves ++ (kept.filter (· ∈ ids)).map fun id => .put a (w, id)
    dropped := s.dropped ++ overflow.map fun id => (a, w, id, .overflow)
    finished := s.finished ++ [(a, w, ids)] }

/-- An add whose tries are used up. -/
def addFailed (a : ℕ) (w : W) (ids : List ι) : SkipState W ι :=
  { s with
    dropped := s.dropped ++ ids.map fun id => (a, w, id, .unqueued)
    finished := s.finished ++ [(a, w, ids)] }

/-- A take whose compare-and-set went through. -/
def takeDone (t : ℕ) (w : W) (take : List ι) (r : WorkflowScan ι) : SkipState W ι :=
  { s.setScan w r with moves := s.moves ++ take.map fun id => .took t (w, id) }

/-- One step of the machine. -/
def step (s : SkipState W ι) : SkipAction W ι → Option (SkipState W ι)
  | .queueSkipped a nodes ids =>
    if s.adds a = .idle then some (s.setAdd a (.calling (skipAdds nodes ids))) else none
  | .addNext a =>
    match s.adds a with
    | .calling ((w, ids) :: rest) => some (s.setAdd a (.trying w ids skipQueueAttempts rest))
    | _ => none
  | .addRead a =>
    match s.adds a with
    | .trying w ids (left + 1) rest =>
      some (s.setAdd a (.merging w ids left rest
        ((s.scans.get? w).map fun r => (r.skipped, r.version))))
    | _ => none
  | .addWrite a =>
    match s.adds a with
    | .merging w ids left rest row =>
      let queued := (row.map Prod.fst).getD []
      let merged := mergeSkipped queued ids
      let kept := merged.take skipQueueLimit
      let overflow := merged.drop skipQueueLimit
      match s.mergedScan w kept row with
      | some r => some ((s.addDone a w ids kept overflow r).setAdd a (.calling rest))
      | none => some (s.setAdd a (.trying w ids left rest))
    | _ => none
  | .addGiveUp a =>
    match s.adds a with
    | .trying w ids 0 rest => some ((s.addFailed a w ids).setAdd a (.calling rest))
    | _ => none
  | .takeRead t =>
    if s.takes t = .idle then
      let rows := s.scans.items.insertionSort (·.1 ≤ ·.1)
      some (s.setTake t (.read (rows.map fun e => (e.1, e.2.skipped, e.2.version))))
    else none
  | .takeRound t after =>
    match s.takes t with
    | .read queues => some (s.setTake t (.taking (roundFrom after queues) []))
    | _ => none
  | .takeNext t =>
    match s.takes t with
    | .taking [] taken => some (s.setTake t (.returned taken))
    | .taking ((w, queued, version) :: rest) taken =>
      let room := idChunkSize - taken.length
      if room = 0 then some (s.setTake t (.returned taken))
      else if queued = [] then some (s.setTake t (.taking rest taken))
      else match s.scans.get? w with
        | none => some (s.setTake t (.taking rest taken))
        | some r =>
          if r.version = version then
            some ((s.takeDone t w (queued.take room)
              { r with skipped := queued.drop room, version := version + 1 }).setTake t
                (.taking rest (taken ++ queued.take room)))
          else some (s.setTake t (.taking rest taken))
    | _ => none
  | .visit v w =>
    if s.visits v = .idle then
      some (s.setVisit v (.placed w (((s.scans.get? w).map WorkflowScan.place).getD .atRest)))
    else none
  | .storeScan v place =>
    match s.visits v with
    | .placed w stored =>
      if place = stored then some s
      else if (s.scans.get? w).any (·.place = stored) then
        (s.scans.get? w).map fun r =>
          (s.setScan w { r with place := place, version := r.version + 1 }).setVisit v
            (.placed w place)
      else if stored ≠ .atRest then some (s.setVisit v .idle)
      else some (s.setVisit v (.creating w place))
    | _ => none
  | .createScan v =>
    match s.visits v with
    | .creating w place =>
      if (s.scans.get? w).isSome then some (s.setVisit v .idle)
      else some ((s.setScan w ⟨place, [], 0⟩).setVisit v (.placed w place))
    | _ => none
  | .leave v => some (s.setVisit v .idle)
  | .complete w => some { s with scans := s.scans.erase w }

end SkipState

/-- Any number of releases, reconcilers and visits. -/
def skipQueues (W ι : Type) [LinearOrder W] [LinearOrder ι] :
    System (SkipState W ι) (SkipAction W ι) where
  init s := s = ⟨.empty, fun _ => .idle, fun _ => .idle, fun _ => .idle, [], [], []⟩
  step := SkipState.step

end DjangoOx
