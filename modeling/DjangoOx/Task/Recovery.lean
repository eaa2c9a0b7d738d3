import DjangoOx.Machine.Table
import DjangoOx.Task.Fencing

/-! Claim recovery: one worker's claiming threads, its executions, its watchdog and its looks,
among everybody else's steps on the rows. -/
namespace DjangoOx

open Machine Machine.Fencing

/-- A claim: the row and the epoch it was granted. -/
abbrev Entry := TaskId × ℕ

/-- A claim inside the claim fence, between its count-in and its count-out. -/
inductive Claiming
  /-- Counted in; no row of it committed. -/
  | counted
  /-- The claim committed this row. -/
  | committed (entry : Entry)
  /-- Registered in `_handed_off`. -/
  | registered
  deriving DecidableEq, Repr

/-- A row a look found RUNNING under its worker's id. -/
structure Found where
  pk : TaskId
  row : OxTask
  abandoned : Bool
  deriving DecidableEq, Repr

/-- The next step of `_recover_claims`, with its locals. -/
inductive Look
  | idle
  /-- No claim was in flight, at this generation. -/
  | checked (generation : ℕ)
  | snapped (generation : ℕ) (known examined : List Entry)
  /-- The rows are read; `state` is the evidence so far and `unseen` the rows still to be read. -/
  | examining (generation : ℕ) (known examined : List Entry) (rows : List Found)
    (state : List (TaskId × OxTask)) (unseen : List TaskId)
  | comparing (generation : ℕ) (known : List Entry) (rows : List Found)
  | releasing (generation : ℕ) (rows : List Found)

structure WorkerState where
  table : Table TaskId RowState
  claimsInFlight : ℕ
  claimGeneration : ℕ
  /-- `_claim_unconfirmed_at` is set. -/
  claimUnconfirmed : Bool
  handedOff : List Entry
  inFlight : List Entry
  unsettled : List Entry
  claims : ℕ → Option Claiming
  looks : ℕ → Look
  /-- The claims that returned to their caller. -/
  returned : List Entry
  /-- The claims that committed and raised. -/
  raised : List Entry

inductive WorkerAction
  /-- Somebody else's step on a row: another worker, a reaper, an operator, or this worker's
  renewals and outcome writes. -/
  | row (pk : TaskId) (a : RowAction)
  | countIn (thread : ℕ)
  /-- The claim's statement commits. -/
  | commit (thread : ℕ) (pk : TaskId) (a : RowAction)
  /-- `_reload_claimed` missed, and the claim goes on to its next candidate. -/
  | missed (thread : ℕ)
  | register (thread : ℕ)
  /-- The claim ends with no row, or with the row it registered. -/
  | countOut (thread : ℕ)
  | raise (thread : ℕ) (noted : Bool)
  | execute (entry : Entry)
  | exit (entry : Entry) (recorded : Bool)
  | stuck (entry : Entry)
  | check (look : ℕ) (expired : Bool)
  | snapshot (look : ℕ)
  | readRows (look : ℕ) (cutoff leaseNow : ℤ)
  | readUnseen (look : ℕ) (chunk : ℕ)
  | dropOver (look : ℕ)
  | compare (look : ℕ)
  | releaseNext (look : ℕ)
  | clear (look : ℕ)
  /-- A database error ends the look. -/
  | fail (look : ℕ)

namespace OxTask

/-- RUNNING under the worker's id. -/
def RunningUnder (w : Worker) (t : OxTask) : Prop :=
  t.status = .running ∧ t.lockedBy = some w.workerId

instance (w : Worker) (t : OxTask) : Decidable (t.RunningUnder w) :=
  inferInstanceAs (Decidable (_ ∧ _))

/-- The evidence that a claim granted `epoch` is over: its row at a later epoch, or at the same
epoch in another state or under another owner. -/
def Over (w : Worker) (epoch : ℕ) (t : OxTask) : Prop :=
  epoch < t.leaseEpoch ∨ t.leaseEpoch = epoch ∧ ¬ t.RunningUnder w

instance (w : Worker) (epoch : ℕ) (t : OxTask) : Decidable (t.Over w epoch) :=
  inferInstanceAs (Decidable (_ ∨ _))

/-- One entry of the history for each attempt, the last one this worker's. -/
def WellFormedHistory (w : Worker) (t : OxTask) : Prop :=
  1 ≤ t.attempts ∧ t.workerIds.length = t.attempts ∧ t.workerIds.getLast? = some w.workerId

instance (w : Worker) (t : OxTask) : Decidable (t.WellFormedHistory w) :=
  inferInstanceAs (Decidable (_ ∧ _ ∧ _))

end OxTask

namespace WorkerState

def setClaim (s : WorkerState) (thread : ℕ) (c : Option Claiming) : WorkerState :=
  { s with claims := Function.update s.claims thread c }

def setLook (s : WorkerState) (look : ℕ) (l : Look) : WorkerState :=
  { s with looks := Function.update s.looks look l }

def discard (l : List Entry) (e : Entry) : List Entry := l.filter (· ≠ e)

/-- A step that the worker's own fence does not see: no claim and no recovery under its id. -/
def Outside (w : Worker) (a : RowAction) : Prop :=
  a.claimant ≠ some w.workerId ∧ a.recoverer ≠ some w.workerId

instance (w : Worker) (a : RowAction) : Decidable (Outside w a) :=
  inferInstanceAs (Decidable (_ ∧ _))

/-- The rows RUNNING under the worker's id, with the reaper's own test of each lease. -/
def found (w : Worker) (s : WorkerState) (cutoff leaseNow : ℤ) : List Found :=
  (s.table.select fun _ r => r.row.RunningUnder w).map fun x =>
    ⟨x.1, x.2.row, decide (x.2.row.Abandoned cutoff leaseNow)⟩

/-- The rows of the examined entries that the first read did not return. -/
def unseen (examined : List Entry) (rows : List Found) : List TaskId :=
  ((examined.map Prod.fst).filter fun pk => pk ∉ rows.map (·.pk)).dedup

/-- The rows of a chunk of ids, as one read finds them. -/
def readChunk (s : WorkerState) (pks : List TaskId) : List (TaskId × OxTask) :=
  pks.filterMap fun pk => (s.table.rows pk).map fun r => (pk, r.row)

/-- The examined entries whose claim the evidence proves over. -/
def overEntries (w : Worker) (examined : List Entry) (state : List (TaskId × OxTask)) : List Entry :=
  examined.filter fun e => state.any fun x => x.1 = e.1 ∧ x.2.Over w e.2

/-- One row of the release loop: nothing for a lease the reaper may take or a malformed history. -/
def releaseRow (w : Worker) (f : Found) (r : RowState) : Option RowState :=
  if f.abandoned = false ∧ f.row.WellFormedHistory w then
    (r.row.releaseClaim w f.row).map (r.commit .recovered)
  else none

def step (w : Worker) (s : WorkerState) : WorkerAction → Option WorkerState
  | .row pk a =>
    if Outside w a then
      (s.table.rows pk).bind fun r => (r.step a).map fun r' => { s with table := s.table.put pk r' }
    else none
  | .countIn t =>
    if s.claims t = none then
      some { s.setClaim t (some .counted) with
        claimsInFlight := s.claimsInFlight + 1
        claimGeneration := s.claimGeneration + 1 }
    else none
  | .commit t pk a =>
    if s.claims t = some .counted ∧ a.claimant = some w.workerId then
      (s.table.rows pk).bind fun r => (r.step a).map fun r' =>
        { s.setClaim t (some (.committed (pk, r'.row.leaseEpoch))) with
          table := s.table.put pk r' }
    else none
  | .missed t =>
    match s.claims t with
    | some (.committed e) =>
      if (s.table.rows e.1).all fun r => r.row.leaseEpoch ≠ e.2 then
        some (s.setClaim t (some .counted))
      else none
    | _ => none
  | .register t =>
    match s.claims t with
    | some (.committed e) =>
      some { s.setClaim t (some .registered) with
        handedOff := e :: s.handedOff
        returned := e :: s.returned }
    | _ => none
  | .countOut t =>
    if s.claims t = some .counted ∨ s.claims t = some .registered then
      some { s.setClaim t none with claimsInFlight := s.claimsInFlight - 1 }
    else none
  | .raise t noted =>
    match s.claims t with
    | some c =>
      some { s.setClaim t none with
        claimsInFlight := s.claimsInFlight - 1
        claimUnconfirmed := s.claimUnconfirmed || noted
        raised := match c with
          | .committed e => e :: s.raised
          | _ => s.raised }
    | none => none
  | .execute e =>
    if e ∈ s.returned then
      some { s with handedOff := discard s.handedOff e, inFlight := e :: s.inFlight }
    else none
  | .exit e recorded =>
    -- `recorded` is what `_run_attempt` answered: its outcome was written to the row
    if e ∈ s.returned ∧ (recorded = true →
        (s.table.rows e.1).any fun r => .answered e.2 ∈ r.log) then
      some { s with
        inFlight := discard s.inFlight e
        unsettled := if recorded then discard s.unsettled e else e :: s.unsettled }
    else none
  | .stuck e =>
    if e ∈ s.returned then
      some { s with inFlight := discard s.inFlight e, unsettled := e :: s.unsettled }
    else none
  | .check l expired =>
    match s.looks l with
    | .idle =>
      if s.claimsInFlight = 0 ∧ s.claimUnconfirmed then
        if expired then some { s with claimUnconfirmed := false }
        else some (s.setLook l (.checked s.claimGeneration))
      else none
    | _ => none
  | .snapshot l =>
    match s.looks l with
    | .checked g =>
      some (s.setLook l (.snapped g (s.inFlight ++ s.handedOff ++ s.unsettled)
        (s.handedOff ++ s.unsettled)))
    | _ => none
  | .readRows l cutoff leaseNow =>
    match s.looks l with
    | .snapped g known examined =>
      let rows := s.found w cutoff leaseNow
      some (s.setLook l (.examining g known examined rows (rows.map fun f => (f.pk, f.row))
        (unseen examined rows)))
    | _ => none
  | .readUnseen l chunk =>
    match s.looks l with
    | .examining g known examined rows state pks =>
      if pks ≠ [] ∧ 0 < chunk then
        some (s.setLook l (.examining g known examined rows
          (state ++ s.readChunk (pks.take chunk)) (pks.drop chunk)))
      else none
    | _ => none
  | .dropOver l =>
    match s.looks l with
    | .examining g known examined rows state [] =>
      let gone := overEntries w examined state
      some { s.setLook l (.comparing g known rows) with
        handedOff := s.handedOff.filter (· ∉ gone)
        unsettled := s.unsettled.filter (· ∉ gone) }
    | _ => none
  | .compare l =>
    match s.looks l with
    | .comparing g known rows =>
      if s.claimGeneration = g then
        some (s.setLook l (.releasing g (rows.filter fun f => f.pk ∉ known.map Prod.fst)))
      else some (s.setLook l .idle)
    | _ => none
  | .releaseNext l =>
    match s.looks l with
    | .releasing g (f :: rows) =>
      some { s.setLook l (.releasing g rows) with
        table := s.table.update fun pk r => if pk = f.pk then releaseRow w f r else none }
    | _ => none
  | .clear l =>
    match s.looks l with
    | .releasing g [] =>
      if s.claimGeneration = g then some { s.setLook l .idle with claimUnconfirmed := false }
      else some (s.setLook l .idle)
    | _ => none
  | .fail l => some (s.setLook l .idle)

/-- A Worker just made: nothing claimed under its id, over any rows with a history. -/
def Start (w : Worker) (s : WorkerState) : Prop :=
  (∀ pk r, s.table.rows pk = some r → rowSystem.Reachable r ∧ ¬ r.row.RunningUnder w) ∧
    s.claimsInFlight = 0 ∧ (∀ t, s.claims t = none) ∧ (∀ l, s.looks l = .idle) ∧
    s.handedOff = [] ∧ s.inFlight = [] ∧ s.unsettled = [] ∧ s.returned = [] ∧ s.raised = []

end WorkerState

def workerSystem (w : Worker) : System WorkerState WorkerAction where
  init := WorkerState.Start w
  step := WorkerState.step w

namespace RowState

/-- `r'` is the row after at most one step. -/
def Leads (r r' : RowState) : Prop := r' = r ∨ ∃ a, r.step a = some r'

theorem Leads.reachable {r r' : RowState} (h : r.Leads r') (hr : rowSystem.Reachable r) :
    rowSystem.Reachable r' := by
  rcases h with rfl | ⟨a, h⟩
  · exact hr
  · exact reachable_step hr h

theorem Leads.seen {r r' : RowState} (h : r.Leads r') {t : OxTask} (ht : r.Seen t) : r'.Seen t := by
  rcases h with rfl | ⟨a, h⟩
  · exact ht
  · exact step_seen h ht

theorem Leads.grants {r r' : RowState} (h : r.Leads r') {e : ℕ} (he : e ∈ grants r.log) :
    e ∈ grants r'.log := by
  rcases h with rfl | ⟨a, h⟩
  · exact he
  · exact step_grants h he

/-- The claim that was granted `e` does not hold the row under `w`, and never will again. -/
def Done (w : Worker) (e : ℕ) (r : RowState) : Prop :=
  e ∈ grants r.log ∧ ¬ (r.row.RunningUnder w ∧ r.row.leaseEpoch = e)

theorem Leads.done {w : Worker} {e : ℕ} {r r' : RowState} (h : r.Leads r')
    (hr : rowSystem.Reachable r) (hd : r.Done w e) : r'.Done w e := by
  refine ⟨h.grants hd.1, ?_⟩
  rintro ⟨hrun, he⟩
  rcases h with rfl | ⟨a, h⟩
  · exact hd.2 ⟨hrun, he⟩
  · rcases step_running h hrun.1 with ⟨hs, hep, hl⟩ | ⟨-, -, hep⟩
    · exact hd.2 ⟨⟨hs, hl ▸ hrun.2⟩, hep ▸ he⟩
    · have hle := (reachable_inv hr).grants_le hd.1
      omega

/-- The evidence of one read: a claim that was granted and is not the row's current one is done. -/
theorem done_of_over {w : Worker} {e : ℕ} {r : RowState} (hg : e ∈ grants r.log)
    (ho : r.row.Over w e) : r.Done w e := by
  refine ⟨hg, ?_⟩
  rintro ⟨hrun, he⟩
  rcases ho with hlt | ⟨-, hn⟩
  · omega
  · exact hn hrun

theorem done_of_answered {w : Worker} {e : ℕ} {r : RowState} (hr : rowSystem.Reachable r)
    (hg : e ∈ grants r.log) (ha : .answered e ∈ r.log) : r.Done w e := by
  refine ⟨hg, ?_⟩
  rintro ⟨hrun, rfl⟩
  have hlive : r.row.fence.live = true := OxTask.fence_live.mpr (.inl hrun.1)
  exact not_spent_of_live hlive ((reachable_inv hr).spent _ ha)

end RowState

namespace WorkerState

/-- No claim is in flight. -/
def Quiet (s : WorkerState) : Prop := ∀ t, s.claims t = none

/-- The claim `e` was granted. -/
def Granted (s : WorkerState) (e : Entry) : Prop :=
  ∃ r, s.table.rows e.1 = some r ∧ e.2 ∈ RowState.grants r.log

/-- Where a claim that holds its row can be: on its way back, registered, or raised. -/
def Covered (s : WorkerState) (e : Entry) : Prop :=
  e ∈ s.handedOff ∨ e ∈ s.inFlight ∨ e ∈ s.unsettled ∨ e ∈ s.raised ∨
    ∃ t, s.claims t = some (.committed e)

/-- A found row that is no claim of the snapshot's was left by a claim that raised. -/
def Explained (s : WorkerState) (known : List Entry) (f : Found) : Prop :=
  f.pk ∈ known.map Prod.fst ∨ (f.pk, f.row.leaseEpoch) ∈ s.raised

/-- The found row is a version its row has had, RUNNING under the worker's id. -/
def FoundSeen (w : Worker) (s : WorkerState) (f : Found) : Prop :=
  f.row.RunningUnder w ∧ ∃ r, s.table.rows f.pk = some r ∧ r.Seen f.row

/-- What a look may rely on. While the generation it read stands, no claim has begun since its
check, so what it knows covers every row the worker holds. -/
def LookOk (w : Worker) (s : WorkerState) : Look → Prop
  | .idle => True
  | .checked g => g ≤ s.claimGeneration ∧ (s.claimGeneration = g → s.Quiet)
  | .snapped g known examined =>
    g ≤ s.claimGeneration ∧ examined ⊆ s.returned ∧
      (s.claimGeneration = g → s.Quiet ∧ ∀ pk r, s.table.rows pk = some r →
        r.row.RunningUnder w →
          pk ∈ known.map Prod.fst ∨ (pk, r.row.leaseEpoch) ∈ s.raised)
  | .examining g known examined rows state _ =>
    g ≤ s.claimGeneration ∧ examined ⊆ s.returned ∧ (∀ f ∈ rows, s.FoundSeen w f) ∧
      (s.claimGeneration = g → ∀ f ∈ rows, s.Explained known f) ∧
      ∀ x ∈ state, ∀ e ∈ examined, x.1 = e.1 → x.2.Over w e.2 →
        ∃ r, s.table.rows e.1 = some r ∧ r.Done w e.2
  | .comparing g known rows =>
    g ≤ s.claimGeneration ∧ (∀ f ∈ rows, s.FoundSeen w f) ∧
      (s.claimGeneration = g → ∀ f ∈ rows, s.Explained known f)
  | .releasing _ rows =>
    ∀ f ∈ rows, s.FoundSeen w f ∧ (f.pk, f.row.leaseEpoch) ∈ s.raised

/-- What any step does to the parts a look relies on. -/
structure Evolves (w : Worker) (s s' : WorkerState) : Prop where
  rows : ∀ pk r, s.table.rows pk = some r → ∃ r', s'.table.rows pk = some r' ∧ r.Leads r'
  returned : s.returned ⊆ s'.returned
  raised : s.raised ⊆ s'.raised
  generation : s.claimGeneration ≤ s'.claimGeneration
  quiet : s'.claimGeneration = s.claimGeneration → s.Quiet → s'.Quiet
  running : s'.claimGeneration = s.claimGeneration → s.Quiet →
    ∀ pk r', s'.table.rows pk = some r' → r'.row.RunningUnder w →
      ∃ r, s.table.rows pk = some r ∧ r.row.RunningUnder w ∧
        r'.row.leaseEpoch = r.row.leaseEpoch

theorem Evolves.granted {w : Worker} {s s' : WorkerState} (h : Evolves w s s') {e : Entry}
    (he : s.Granted e) : s'.Granted e := by
  obtain ⟨r, hr, hg⟩ := he
  obtain ⟨r', hr', hl⟩ := h.rows _ _ hr
  exact ⟨r', hr', hl.grants hg⟩

theorem Evolves.foundSeen {w : Worker} {s s' : WorkerState} (h : Evolves w s s') {f : Found}
    (hf : s.FoundSeen w f) : s'.FoundSeen w f := by
  obtain ⟨hrun, r, hr, hs⟩ := hf
  obtain ⟨r', hr', hl⟩ := h.rows _ _ hr
  exact ⟨hrun, r', hr', hl.seen hs⟩

theorem Evolves.explained {w : Worker} {s s' : WorkerState} (h : Evolves w s s')
    {known : List Entry} {f : Found} (hf : s.Explained known f) : s'.Explained known f :=
  hf.imp_right fun hr => h.raised hr

/-- A look keeps what it relies on across every step. -/
theorem LookOk.mono {w : Worker} {s s' : WorkerState} {k : Look} (h : s.LookOk w k)
    (he : Evolves w s s')
    (hrows : ∀ pk r, s.table.rows pk = some r → rowSystem.Reachable r) : s'.LookOk w k := by
  have hgen := he.generation
  cases k with
  | idle => trivial
  | checked g =>
    obtain ⟨hg, hq⟩ := h
    refine ⟨by omega, fun heq => ?_⟩
    have hsame : s'.claimGeneration = s.claimGeneration := by omega
    exact he.quiet hsame (hq (by omega))
  | snapped g known examined =>
    obtain ⟨hg, hex, hq⟩ := h
    refine ⟨by omega, fun e hm => he.returned (hex hm), fun heq => ?_⟩
    have hsame : s'.claimGeneration = s.claimGeneration := by omega
    obtain ⟨hqs, hk⟩ := hq (by omega)
    refine ⟨he.quiet hsame hqs, fun pk r' hr' hrun => ?_⟩
    obtain ⟨r, hr, hrun', hep⟩ := he.running hsame hqs pk r' hr' hrun
    rw [hep]
    exact (hk pk r hr hrun').imp_right fun hm => he.raised hm
  | examining g known examined rows state unseen =>
    obtain ⟨hg, hex, hseen, hexp, hev⟩ := h
    refine ⟨by omega, fun e hm => he.returned (hex hm), fun f hf => he.foundSeen (hseen f hf),
      fun heq f hf => he.explained (hexp (by omega) f hf), ?_⟩
    intro x hx e hm hpk ho
    obtain ⟨r, hr, hd⟩ := hev x hx e hm hpk ho
    obtain ⟨r', hr', hl⟩ := he.rows _ _ hr
    exact ⟨r', hr', hl.done (hrows _ _ hr) hd⟩
  | comparing g known rows =>
    obtain ⟨hg, hseen, hexp⟩ := h
    exact ⟨by omega, fun f hf => he.foundSeen (hseen f hf),
      fun heq f hf => he.explained (hexp (by omega) f hf)⟩
  | releasing g rows =>
    intro f hf
    exact ⟨he.foundSeen (h f hf).1, he.raised (h f hf).2⟩

/-- What a run keeps. Every row RUNNING under the worker's id is the row of a claim on its way
back, of a registered entry, or of a claim that raised; a claim that raised did not return. -/
structure Inv (w : Worker) (s : WorkerState) : Prop where
  rows : ∀ pk r, s.table.rows pk = some r → rowSystem.Reachable r
  count : ∃ ts : List ℕ, ts.Nodup ∧ (∀ t, t ∈ ts ↔ s.claims t ≠ none) ∧
    ts.length = s.claimsInFlight
  covered : ∀ pk r, s.table.rows pk = some r → r.row.RunningUnder w →
    s.Covered (pk, r.row.leaseEpoch)
  entries : ∀ e, e ∈ s.handedOff ∨ e ∈ s.inFlight ∨ e ∈ s.unsettled → e ∈ s.returned
  granted : ∀ e, e ∈ s.returned ∨ e ∈ s.raised ∨ (∃ t, s.claims t = some (.committed e)) →
    s.Granted e
  disjoint : ∀ e ∈ s.raised, e ∉ s.returned
  once : ∀ t e, s.claims t = some (.committed e) →
    e ∉ s.returned ∧ e ∉ s.raised ∧ ∀ u, s.claims u = some (.committed e) → u = t
  looks : ∀ l, s.LookOk w (s.looks l)

theorem Inv.quiet {w : Worker} {s : WorkerState} (hi : s.Inv w) (h : s.claimsInFlight = 0) :
    s.Quiet := by
  obtain ⟨ts, -, hmem, hlen⟩ := hi.count
  intro t
  by_contra hne
  have ht := (hmem t).mpr hne
  have : ts = [] := List.length_eq_zero_iff.mp (hlen.trans h)
  simp [this] at ht

theorem inv_of_start {w : Worker} {s : WorkerState} (h : s.Start w) : s.Inv w := by
  obtain ⟨hrows, hc, hcl, hlk, hh, hf, hu, hret, hra⟩ := h
  refine ⟨fun pk r hr => (hrows pk r hr).1, ⟨[], by simp, by simp [hcl], by simp [hc]⟩,
    fun pk r hr hrun => absurd hrun (hrows pk r hr).2, by simp [hh, hf, hu],
    by simp [hret, hra, hcl], by simp [hra], by simp [hcl], fun l => ?_⟩
  rw [hlk l]
  trivial

end WorkerState

end DjangoOx
