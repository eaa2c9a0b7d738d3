import Mathlib.Data.Int.Notation
import DjangoOx.Limits.Running

/-! Rate limits: workers that read the windows before they claim, and count each claim after it. -/
namespace DjangoOx

open Machine

/-- One configuration holds for every worker, so a limit stands for its name. -/
structure RateLimit where
  name : String
  limit : ℕ
  per : ℕ
  taskPaths : List String
  queues : List String
  deriving DecidableEq, Repr

/-- `RateLimit.covers` -/
def RateLimit.Covers (l : RateLimit) (c : LimitedCall) : Prop :=
  c.taskPath ∈ l.taskPaths ∨ c.queueName ∈ l.queues

instance (l : RateLimit) (c : LimitedCall) : Decidable (l.Covers c) :=
  inferInstanceAs (Decidable (_ ∨ _))

/-- `OxpullRateWindow` -/
structure RateWindow where
  windowId : ℕ
  used : ℕ
  startedAt : ℤ
  deriving DecidableEq, Repr

/-- A window as `_select` returns it, and whether it had ended on the clock of that statement. -/
structure ReadRow where
  windowId : ℕ
  used : ℕ
  expired : Bool
  deriving DecidableEq, Repr

/-- `_read_windows`: up to its SELECT, and through its rolls. -/
inductive Reading
  | probing
  | rolling (rows : RateLimit → ReadRow) (todo : List RateLimit)

/-- `_record` of a claim: the limits still to be counted, and the tries left for the first. -/
structure Recording where
  call : LimitedCall
  /-- The windows the claim stood on. -/
  views : RateLimit → Option ℕ
  todo : List RateLimit
  tries : ℕ

inductive RatePhase
  | idle
  | refreshing (r : Reading)
  | ready
  | reloading (rec : Recording)
  | recording (rec : Recording)
  /-- `_read_windows` inside `_count`. -/
  | rereading (rec : Recording) (r : Reading)

namespace RatePhase

def reading : RatePhase → Option Reading
  | refreshing r | rereading _ r => some r
  | _ => none

def setReading : RatePhase → Reading → RatePhase
  | refreshing _, r => refreshing r
  | rereading rec _, r => rereading rec r
  | p, _ => p

/-- The claim that is committed and not yet recorded. -/
def pending : RatePhase → Option Recording
  | reloading rec | recording rec | rereading rec _ => some rec
  | _ => none

end RatePhase

structure RateClaimer where
  /-- `_view_stale` -/
  stale : Bool
  /-- `_seen`: the window ids of the view. -/
  seen : RateLimit → Option ℕ
  blocked : List RateLimit
  closed : List RateLimit
  /-- `_count_failures` -/
  failures : RateLimit → ℕ
  phase : RatePhase

/-- A worker as it starts. -/
def RateClaimer.fresh : RateClaimer := ⟨true, fun _ => none, [], [], fun _ => 0, .idle⟩

/-- `MAX_RATE_ATTEMPTS` -/
def maxRateAttempts : ℕ := 5

/-- `MAX_COUNT_FAILURES` -/
def maxCountFailures : ℕ := 3

/-- `_unrecorded` -/
def RateClaimer.unrecorded (c : RateClaimer) (l : RateLimit) : RateClaimer :=
  { c with
    failures := Function.update c.failures l (c.failures l + 1)
    closed := if c.failures l + 1 < maxCountFailures ∨ l ∈ c.closed then c.closed
      else l :: c.closed }

/-- A count landed, or a probe did. -/
def RateClaimer.counts (c : RateClaimer) (l : RateLimit) : RateClaimer :=
  { c with failures := Function.update c.failures l 0 }

/-- How many claims, by limit and window. -/
abbrev Tally := RateLimit → ℕ → ℕ

/-- One more under every limit that covers the call. -/
def Tally.add (n : Tally) (call : LimitedCall) (views : RateLimit → Option ℕ) : Tally :=
  fun l g => n l g + if l.Covers call ∧ views l = some g then 1 else 0

/-- One more under the limit. -/
def Tally.addOne (n : Tally) (l : RateLimit) (views : RateLimit → Option ℕ) : Tally :=
  fun l' g => n l' g + if l' = l ∧ views l = some g then 1 else 0

structure RateState (W : ℕ) where
  now : ℤ
  windows : RateLimit → Option RateWindow
  workers : Fin W → RateClaimer
  /-- The claims that committed, by the window of the worker's view. -/
  admitted : Tally
  /-- Of those: the ones that ran uncounted. -/
  uncounted : Tally
  /-- The ones that raised, or whose process died, before they were recorded. -/
  raised : Tally
  /-- The ones taken by compare-and-set whose row had moved before it was read back. -/
  lost : Tally
  /-- Who opened which window: the limit, the id that it took the row from, and the worker. -/
  rolls : List (RateLimit × ℕ × Fin W)

inductive RateAction (W : ℕ)
  | tick (now : ℤ)
  /-- `_refresh_view`; `due` says that the refresh interval has passed. -/
  | refresh (w : Fin W) (due : Bool)
  /-- A closed limit's counter takes writes again. -/
  | probe (w : Fin W) (l : RateLimit)
  | seed (w : Fin W) (l : RateLimit)
  | select (w : Fin W)
  /-- The next window of the view, which is rolled if it has ended. -/
  | roll (w : Fin W)
  | publish (w : Fin W)
  /-- An error in `_read_windows`, of the database's or another; a roll may have landed. -/
  | readRaises (w : Fin W) (landed database : Bool)
  | claim (w : Fin W) (call : LimitedCall)
  | claimRaises (w : Fin W) (call : LimitedCall)
  | claimOptimistic (w : Fin W) (call : LimitedCall)
  | reload (w : Fin W)
  | reloadLost (w : Fin W)
  | reloadRaises (w : Fin W)
  /-- No row, or an error before anything was committed. -/
  | claimNone (w : Fin W)
  | count (w : Fin W)
  /-- An error of the count's UPDATE, which may have landed. -/
  | countRaises (w : Fin W) (landed database : Bool)
  /-- The window rolled under every try. -/
  | giveUp (w : Fin W)
  | finish (w : Fin W)
  /-- The process dies, and another takes its place. -/
  | restart (w : Fin W)

namespace RateState

variable {W : ℕ} (limits : List RateLimit)

def setWorker (s : RateState W) (w : Fin W) (c : RateClaimer) : RateState W :=
  { s with workers := Function.update s.workers w c }

/-- `_roll` -/
def tryRoll (s : RateState W) (w : Fin W) (l : RateLimit) (windowId : ℕ) : Option (RateState W) :=
  match s.windows l with
  | some win =>
    if win.windowId = windowId ∧ win.startedAt + l.per ≤ s.now then
      some { s with
        windows := Function.update s.windows l (some ⟨windowId + 1, 0, s.now⟩)
        rolls := (l, windowId, w) :: s.rolls }
    else none
  | none => none

/-- The UPDATE of `_count`. -/
def tryCount (s : RateState W) (l : RateLimit) (windowId : ℕ) : Option (RateState W) :=
  match s.windows l with
  | some win =>
    if win.windowId = windowId then
      some { s with
        windows := Function.update s.windows l (some { win with used := win.used + 1 }) }
    else none
  | none => none

/-- A read that an error ends: the roll under way may have landed. -/
def interruptedRead (s : RateState W) (w : Fin W) (landed : Bool) : Option Reading → RateState W
  | some (.rolling rows (l :: _)) =>
    if landed = true ∧ (rows l).expired = true then (s.tryRoll w l (rows l).windowId).getD s else s
  | _ => s

/-- A count that an error ends: it may have landed. -/
def interruptedCount (s : RateState W) (landed : Bool) (l : RateLimit) (windowId : ℕ) :
    RateState W :=
  if landed = true then (s.tryCount l windowId).getD s else s

/-- What `_select` reads of a limit. -/
def readRow (s : RateState W) (l : RateLimit) : ReadRow :=
  match s.windows l with
  | some win => ⟨win.windowId, win.used, win.startedAt + l.per ≤ s.now⟩
  | none => ⟨0, 0, false⟩

/-- The claim's filter lets the call through. -/
def Claimable (s : RateState W) (w : Fin W) (call : LimitedCall) : Prop :=
  ∀ l ∈ (s.workers w).blocked, ¬ l.Covers call

instance (s : RateState W) (w : Fin W) (call : LimitedCall) : Decidable (s.Claimable w call) :=
  inferInstanceAs (Decidable (∀ l ∈ _, _))

/-- What `_record` is given. -/
def recordingOf (s : RateState W) (w : Fin W) (call : LimitedCall) : Recording :=
  ⟨call, (s.workers w).seen, limits.filter (·.Covers call), maxRateAttempts⟩

/-- A claim commits. -/
def admitClaim (s : RateState W) (w : Fin W) (call : LimitedCall) : RateState W :=
  { s with admitted := s.admitted.add call (s.workers w).seen }

/-- The claim under way is never recorded. -/
def raise (s : RateState W) (rec : Recording) : RateState W :=
  { s with raised := s.raised.add rec.call rec.views }

/-- The first limit of the recording runs uncounted; the next has all its tries. -/
def skipCount (s : RateState W) (w : Fin W) (rec : Recording) : RateState W :=
  match rec.todo with
  | l :: todo =>
    { s with uncounted := s.uncounted.addOne l rec.views }.setWorker w
      { (s.workers w).unrecorded l with
        phase := .recording { rec with todo := todo, tries := maxRateAttempts } }
  | [] => s

def step (s : RateState W) : RateAction W → Option (RateState W)
  | .tick now => some { s with now := now }
  | .refresh w due =>
    let c := s.workers w
    match c.phase with
    | .idle =>
      if c.stale = true ∨ due = true then
        some (s.setWorker w { c with phase := .refreshing .probing })
      else some (s.setWorker w { c with phase := .ready })
    | _ => none
  | .probe w l =>
    let c := s.workers w
    match c.phase.reading with
    | some .probing =>
      some (s.setWorker w { c.counts l with closed := c.closed.filter (· ≠ l) })
    | _ => none
  | .seed w l =>
    match (s.workers w).phase.reading, s.windows l with
    | some .probing, none =>
      some { s with windows := Function.update s.windows l (some ⟨0, 0, s.now⟩) }
    | _, _ => none
  | .select w =>
    let c := s.workers w
    match c.phase.reading with
    | some .probing =>
      if ∀ l ∈ limits, s.windows l ≠ none then
        some (s.setWorker w { c with phase := c.phase.setReading (.rolling s.readRow limits) })
      else none
    | _ => none
  | .roll w =>
    let c := s.workers w
    match c.phase.reading with
    | some (.rolling rows (l :: todo)) =>
      let lose := s.setWorker w { c with phase := c.phase.setReading (.rolling rows todo) }
      if (rows l).expired = true then
        match s.tryRoll w l (rows l).windowId with
        | some s' =>
          let opened := Function.update rows l ⟨(rows l).windowId + 1, 0, false⟩
          some (s'.setWorker w { c with phase := c.phase.setReading (.rolling opened todo) })
        | none => some lose
      else some lose
    | _ => none
  | .publish w =>
    let c := s.workers w
    let view := fun rows : RateLimit → ReadRow => { c with
      stale := false
      seen := fun l => if l ∈ limits then some (rows l).windowId else none
      blocked := limits.filter fun l => l.limit ≤ (rows l).used ∨ l ∈ c.closed }
    match c.phase with
    | .refreshing (.rolling rows []) => some (s.setWorker w { view rows with phase := .ready })
    | .rereading rec (.rolling rows []) =>
      some (s.setWorker w { view rows with phase := .recording rec })
    | _ => none
  | .readRaises w landed database =>
    let c := s.workers w
    let s' := s.interruptedRead w landed c.phase.reading
    match c.phase with
    | .refreshing _ => some (s'.setWorker w { c with phase := .idle })
    | .rereading rec _ =>
      if database = true then some (s'.skipCount w rec)
      else some ((s'.raise rec).setWorker w { c with phase := .idle })
    | _ => none
  | .claim w call =>
    let c := s.workers w
    match c.phase with
    | .ready =>
      if s.Claimable w call then
        some ((s.admitClaim w call).setWorker w
          { c with phase := .recording (s.recordingOf limits w call) })
      else none
    | _ => none
  | .claimRaises w call =>
    let c := s.workers w
    match c.phase with
    | .ready =>
      if s.Claimable w call then
        some (((s.admitClaim w call).raise (s.recordingOf limits w call)).setWorker w
          { c with phase := .idle })
      else none
    | _ => none
  | .claimOptimistic w call =>
    let c := s.workers w
    match c.phase with
    | .ready =>
      if s.Claimable w call then
        some ((s.admitClaim w call).setWorker w
          { c with phase := .reloading (s.recordingOf limits w call) })
      else none
    | _ => none
  | .reload w =>
    let c := s.workers w
    match c.phase with
    | .reloading rec => some (s.setWorker w { c with phase := .recording rec })
    | _ => none
  | .reloadLost w =>
    let c := s.workers w
    match c.phase with
    | .reloading rec =>
      some ({ s with lost := s.lost.add rec.call rec.views }.setWorker w { c with phase := .ready })
    | _ => none
  | .reloadRaises w =>
    let c := s.workers w
    match c.phase with
    | .reloading rec => some ((s.raise rec).setWorker w { c with phase := .idle })
    | _ => none
  | .claimNone w =>
    let c := s.workers w
    match c.phase with
    | .ready => some (s.setWorker w { c with phase := .idle })
    | _ => none
  | .count w =>
    let c := s.workers w
    match c.phase with
    | .recording ⟨call, views, l :: todo, tries + 1⟩ =>
      let next := .recording ⟨call, views, todo, maxRateAttempts⟩
      match c.seen l with
      | none => some (s.setWorker w { c with phase := next })
      | some windowId =>
        match s.tryCount l windowId with
        | some s' => some (s'.setWorker w { c.counts l with phase := next })
        | none =>
          some (s.setWorker w { c with phase := .rereading ⟨call, views, l :: todo, tries⟩ .probing })
    | _ => none
  | .countRaises w landed database =>
    let c := s.workers w
    match c.phase with
    | .recording rec =>
      match rec.todo, rec.tries with
      | l :: _, _ + 1 =>
        match c.seen l with
        | none => none
        | some windowId =>
          let s' := s.interruptedCount landed l windowId
          if database = true then some (s'.skipCount w rec)
          else some ((s'.raise rec).setWorker w { c with phase := .idle })
      | _, _ => none
    | _ => none
  | .giveUp w =>
    match (s.workers w).phase with
    | .recording rec =>
      match rec.todo, rec.tries with
      | _ :: _, 0 => some (s.skipCount w rec)
      | _, _ => none
    | _ => none
  | .finish w =>
    let c := s.workers w
    match c.phase with
    | .recording rec =>
      if rec.todo = [] then
        some (s.setWorker w { c with
          stale := c.stale || limits.any fun l => l.Covers rec.call
          phase := .idle })
      else none
    | _ => none
  | .restart w =>
    match (s.workers w).phase.pending with
    | some rec => some ((s.raise rec).setWorker w .fresh)
    | none => some (s.setWorker w .fresh)

/-- No windows, no claims, and no worker has looked. -/
def Start (s : RateState W) : Prop :=
  (∀ l, s.windows l = none) ∧ (∀ w, s.workers w = .fresh) ∧ (∀ l g, s.admitted l g = 0) ∧
    (∀ l g, s.uncounted l g = 0) ∧ (∀ l g, s.raised l g = 0) ∧ (∀ l g, s.lost l g = 0) ∧ s.rolls = []

end RateState

def rateSystem (W : ℕ) (limits : List RateLimit) : System (RateState W) (RateAction W) where
  init := RateState.Start
  step := RateState.step limits

end DjangoOx
