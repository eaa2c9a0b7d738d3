import DjangoOx.Limits.ClaimFilter
import DjangoOx.Task.Claim

/-! Which rows a claim takes, on whichever path: the two hooks say one condition. -/
namespace DjangoOx

open Machine Machine.Condition

/-- The parameter names of oxpull's fragments. -/
def oxpullNames : List String :=
  ["ox_wf_success", "ox_wf_unsatisfied", "ox_blocked_paths", "ox_blocked_queues"]

/-- The parameter names that the select of the claim binds itself. -/
def selectNames : List String := ["ready", "now", "queues"] ++ oxpullNames

namespace ClaimHooks

/-- A class that writes both hooks means one condition by them. -/
def Agree (h : ClaimHooks) : Prop :=
  ∀ q ∈ h.q, ∀ f ∈ h.fragment, ∀ c, q.Selects c ↔ (f h.params).Selects c

/-- The fragment reads its own parameters, and none of them has a name of the select's. -/
structure OwnParams (h : ClaimHooks) : Prop where
  closed : ∀ f ∈ h.fragment, ∀ params : SqlParams,
    (∀ name v, h.params name = some v → params name = some v) → f params = f h.params
  apart : ∀ name ∈ selectNames, h.params name = none

/-- The class's condition, from whichever hook says it. -/
def Means (h : ClaimHooks) (c : Candidate) : Prop :=
  match h.q, h.fragment with
  | some q, _ => q.Selects c
  | none, some f => (f h.params).Selects c
  | none, none => True

/-- The class's condition, as far as the engine's paths read the hook that says it: a fragment
without a queryset condition is read by the single-statement claim only. -/
def Applies (h : ClaimHooks) (engine : Engine) (c : Candidate) : Prop :=
  match h.q, h.fragment with
  | some q, _ => q.Selects c
  | none, some f =>
    engine.postgresql = true ∧ engine.skipLocked = true → (f h.params).Selects c
  | none, none => True

instance (h : ClaimHooks) (c : Candidate) : Decidable (h.Means c) :=
  match h with
  | ⟨some q, _, _⟩ => inferInstanceAs (Decidable (q.Selects c))
  | ⟨none, some f, params⟩ => inferInstanceAs (Decidable ((f params).Selects c))
  | ⟨none, none, _⟩ => inferInstanceAs (Decidable True)

instance (h : ClaimHooks) (engine : Engine) (c : Candidate) : Decidable (h.Applies engine c) :=
  match h with
  | ⟨some q, _, _⟩ => inferInstanceAs (Decidable (q.Selects c))
  | ⟨none, some f, params⟩ => inferInstanceAs (Decidable (_ → (f params).Selects c))
  | ⟨none, none, _⟩ => inferInstanceAs (Decidable True)

end ClaimHooks

namespace OxpullWorkflowEdge

/-- The edge holds its downstream back: it is unmarked, and its upstream has not succeeded. -/
def Blocks (db : ClaimTables) (e : OxpullWorkflowEdge) : Prop :=
  e.satisfied = false ∧ ¬ ∃ u, db.tasks e.upstream = some u ∧ u.status = .successful

theorem upstreamStatus_eq (db : ClaimTables) (e : OxpullWorkflowEdge) :
    ∃ text, e.upstreamStatus db = some text ∧
      (text ≠ Status.successful.value ↔ ¬ ∃ u, db.tasks e.upstream = some u ∧ u.status = .successful) := by
  unfold upstreamStatus
  cases h : db.tasks e.upstream with
  | none =>
    refine ⟨"", rfl, ?_⟩
    simp [Status.value]
  | some u =>
    refine ⟨u.status.value, rfl, ?_⟩
    simp [Status.value_inj]

theorem selects_blocking {db : ClaimTables} {c : Candidate} {e : OxpullWorkflowEdge} :
    (blocking db c).Selects e ↔ e.downstream = c.pk ∧ e.Blocks db := by
  obtain ⟨text, htext, hne⟩ := e.upstreamStatus_eq db
  have hpk : c.pk = e.downstream ↔ e.downstream = c.pk := eq_comm
  unfold blocking Blocks
  rw [← hne]
  simp [htext, and_assoc, hpk]

end OxpullWorkflowEdge

/-- Nothing holds the row back. -/
def Candidate.Runnable (db : ClaimTables) (c : Candidate) : Prop :=
  ∀ e ∈ db.edges, e.downstream = c.pk → ¬ e.Blocks db

theorem selects_runnableFilterQ {db : ClaimTables} {c : Candidate} :
    (runnableFilterQ db).Selects c ↔ c.Runnable db := by
  simp [runnableFilterQ, Candidate.Runnable, OxpullWorkflowEdge.selects_blocking]

/-- The fragment says the same under any parameters that bind its two names to its own values. -/
theorem selects_runnableFilterSql {db : ClaimTables} {c : Candidate} {params : SqlParams}
    (hsuccess : params "ox_wf_success" = some (.text Status.successful.value))
    (hunsatisfied : params "ox_wf_unsatisfied" = some (.bool false)) :
    (runnableFilterSql db params).Selects c ↔ c.Runnable db := by
  unfold runnableFilterSql Candidate.Runnable
  rw [selects_negate_existsIn, hsuccess, hunsatisfied]
  apply forall₂_congr
  intro e _
  obtain ⟨text, htext, hne⟩ := e.upstreamStatus_eq db
  have hpk : c.pk = e.downstream ↔ e.downstream = c.pk := eq_comm
  unfold OxpullWorkflowEdge.Blocks
  rw [← hne]
  simp [htext, SqlValue.asBool, SqlValue.asText, and_assoc, hpk]

namespace FilteringWorker

variable {w : FilteringWorker} {db : ClaimTables} {engine : Engine} {now : ℤ} {c : Candidate}

/-- What the limits and the workflows ask of a row. -/
structure Allows (w : FilteringWorker) (db : ClaimTables) (c : Candidate) : Prop where
  paths : ∀ path ∈ w.excludedPaths, db.same c.row.taskPath path = false
  queues : ∀ queue ∈ w.excludedQueues, db.same c.row.queueName queue = false
  runnable : w.workflows = true → c.Runnable db

theorem selects_oxpullConditionQ :
    ((w.oxpullConditionQ db).getD always).Selects c ↔ w.Allows db c := by
  unfold oxpullConditionQ
  by_cases hnone : w.workflows = false ∧ w.excludedPaths = [] ∧ w.excludedQueues = []
  · rw [if_pos hnone]
    simp only [Option.getD_none, selects_always, true_iff]
    exact ⟨by simp [hnone.2.1], by simp [hnone.2.2], by simp [hnone.1]⟩
  · rw [if_neg hnone, Option.getD_some, selects_both, selects_both, selects_when, selects_unless,
      selects_unless, selects_notOneOf_notNull, selects_notOneOf_notNull, selects_runnableFilterQ]
    constructor
    · rintro ⟨⟨hrunnable, hpaths⟩, hqueues⟩
      exact ⟨fun path hpath => hpaths (List.ne_nil_of_mem hpath) path hpath,
        fun queue hqueue => hqueues (List.ne_nil_of_mem hqueue) queue hqueue, hrunnable⟩
    · intro h
      exact ⟨⟨h.runnable, fun _ => h.paths⟩, fun _ => h.queues⟩

/-- The parameters that oxpull binds; it binds no other name. -/
theorem oxpullParams_apply (name : String) : w.oxpullParams db name =
    if name = "ox_blocked_queues" ∧ w.excludedQueues ≠ [] then some (.texts w.excludedQueues)
    else if name = "ox_blocked_paths" ∧ w.excludedPaths ≠ [] then some (.texts w.excludedPaths)
    else if w.workflows = true then runnableParams name else none := by
  unfold oxpullParams oxpullConjuncts SqlParams.merge
  by_cases hq : w.excludedQueues = [] <;> by_cases hp : w.excludedPaths = [] <;>
    by_cases hw : w.workflows = true <;> by_cases h1 : name = "ox_blocked_queues" <;>
    by_cases h2 : name = "ox_blocked_paths" <;> simp [hq, hp, hw, h1, h2, runnableParams]

theorem oxpullParams_eq_none {name : String} (h : name ∉ oxpullNames) :
    w.oxpullParams db name = none := by
  simp only [oxpullNames, List.mem_cons, not_or, List.not_mem_nil, not_false_eq_true,
    and_true] at h
  obtain ⟨hsuccess, hunsatisfied, hpaths, hqueues⟩ := h
  rw [oxpullParams_apply, if_neg (fun hn => hqueues hn.1), if_neg (fun hn => hpaths hn.1)]
  unfold runnableParams
  rw [if_neg hsuccess, if_neg hunsatisfied, ite_self]

/-- oxpull's fragments say what its queryset condition says, where its parameters are bound. -/
theorem selects_oxpullConjuncts {params : SqlParams}
    (hparams : ∀ name v, w.oxpullParams db name = some v → params name = some v) :
    (∀ f ∈ (w.oxpullConjuncts db).map Prod.fst, (f params).Selects c) ↔ w.Allows db c := by
  have hpaths : w.excludedPaths ≠ [] → params "ox_blocked_paths" = some (.texts w.excludedPaths) := by
    intro hne
    apply hparams
    rw [oxpullParams_apply]
    simp [hne]
  have hqueues : w.excludedQueues ≠ [] →
      params "ox_blocked_queues" = some (.texts w.excludedQueues) := by
    intro hne
    apply hparams
    rw [oxpullParams_apply]
    simp [hne]
  have hrunnable : w.workflows = true → ((runnableFilterSql db params).Selects c ↔ c.Runnable db) := by
    intro hwf
    apply selects_runnableFilterSql
    · apply hparams
      rw [oxpullParams_apply]
      simp [hwf, runnableParams]
    · apply hparams
      rw [oxpullParams_apply]
      simp [hwf, runnableParams]
  have hsplit : (∀ f ∈ (w.oxpullConjuncts db).map Prod.fst, (f params).Selects c) ↔
      (w.workflows = true → (runnableFilterSql db params).Selects c) ∧
      (w.excludedPaths ≠ [] → (noneOf db.same (fun c : Candidate => some c.row.taskPath) fun _ =>
        (params "ox_blocked_paths").bind SqlValue.asTexts).Selects c) ∧
      (w.excludedQueues ≠ [] → (noneOf db.same (fun c : Candidate => some c.row.queueName) fun _ =>
        (params "ox_blocked_queues").bind SqlValue.asTexts).Selects c) := by
    unfold oxpullConjuncts
    rw [List.map_append, List.map_append, List.forall_mem_append, List.forall_mem_append, and_assoc]
    refine and_congr ?_ (and_congr ?_ ?_)
    · split_ifs with h <;> simp [h]
    · split_ifs with h <;> simp [h]
    · split_ifs with h <;> simp [h]
  rw [hsplit]
  constructor
  · rintro ⟨h1, h2, h3⟩
    constructor
    · intro path hpath
      have hne := List.ne_nil_of_mem hpath
      have hsel := h2 hne
      rw [hpaths hne] at hsel
      exact selects_noneOf_notNull.mp hsel path hpath
    · intro queue hqueue
      have hne := List.ne_nil_of_mem hqueue
      have hsel := h3 hne
      rw [hqueues hne] at hsel
      exact selects_noneOf_notNull.mp hsel queue hqueue
    · exact fun hwf => (hrunnable hwf).mp (h1 hwf)
  · intro h
    refine ⟨fun hwf => (hrunnable hwf).mpr (h.runnable hwf), ?_, ?_⟩
    · intro hne
      rw [hpaths hne]
      exact selects_noneOf_notNull.mpr h.paths
    · intro hne
      rw [hqueues hne]
      exact selects_noneOf_notNull.mpr h.queues

/-- READY, due, and in a queue of the worker's. -/
structure Due (w : FilteringWorker) (db : ClaimTables) (now : ℤ) (c : Candidate) : Prop where
  ready : c.row.status = .ready
  runAfter : ∀ r ∈ c.row.runAfter, r ≤ now
  queue : w.queues = [] ∨ ∃ queue ∈ w.queues, db.same c.row.queueName queue = true

/-- The part of the select that no hook has a say in. -/
theorem selects_due {status : Option String} {instant : Option ℤ} {queues : Option (List String)}
    (hstatus : status = some Status.ready.value) (hinstant : instant = some now)
    (hqueues : queues = some w.queues) :
    (((equals (fun c : Candidate => some c.row.status.value) fun _ => status).both
      ((isNull fun c : Candidate => c.row.runAfter).either
        (atMost (fun c => c.row.runAfter) fun _ => instant))).both
      (if w.queues = [] then always
        else oneOf db.same (fun c => some c.row.queueName) fun _ => queues)).Selects c ↔
      w.Due db now c := by
  rw [hstatus, hinstant, hqueues, selects_both, selects_both, selects_unless,
    selects_oneOf_notNull]
  have hready : (equals (fun c : Candidate => some c.row.status.value) fun _ =>
      some Status.ready.value).Selects c ↔ c.row.status = .ready := by
    rw [selects_equals]
    simp [Status.value_inj, @eq_comm _ Status.ready.value]
  have hdue : ((isNull fun c : Candidate => c.row.runAfter).either
      (atMost (fun c => c.row.runAfter) fun _ => some now)).Selects c ↔
      ∀ r ∈ c.row.runAfter, r ≤ now := by
    rw [selects_either, selects_isNull, selects_atMost]
    cases c.row.runAfter <;> simp
  rw [hready, hdue]
  constructor
  · rintro ⟨⟨h1, h2⟩, h3⟩
    exact ⟨h1, h2, or_iff_not_imp_left.mpr h3⟩
  · intro h
    exact ⟨⟨h.ready, h.runAfter⟩, or_iff_not_imp_left.mp h.queue⟩

/-- The queryset paths: the class's queryset condition and oxpull's. -/
theorem selects_readyQueryset :
    (w.readyQueryset db now).Selects c ↔
      w.Due db now c ∧ (∀ q ∈ w.hooks.q, q.Selects c) ∧ w.Allows db c := by
  unfold readyQueryset
  rw [selects_both, selects_due rfl rfl rfl, ← selects_oxpullConditionQ]
  unfold claimFilterQ
  cases w.hooks.q <;> cases w.oxpullConditionQ db <;> simp

/-- What the joined fragments say: every one of them. -/
theorem selects_joined {fragments : List SqlFragment} {params : SqlParams} :
    (extraClause params (joined fragments)).Selects c ↔ ∀ f ∈ fragments, (f params).Selects c := by
  unfold joined
  split_ifs with hnil
  · simp [hnil, extraClause]
  · simp [extraClause]

/-- The single-statement claim is taken only where its fragment carries the class's condition. -/
theorem claimFilterSql_of_honours (h : w.honoursTheClaimFilter db = true) :
    w.hooks.fragment.isSome = true ∨ w.hooks.q = none := by
  by_contra hno
  rw [not_or, Bool.not_eq_true, Option.isSome_eq_false_iff] at hno
  obtain ⟨hfragment, hq⟩ := hno
  have hsome : w.hooks.q.isSome = true := Option.isSome_iff_ne_none.mpr hq
  unfold honoursTheClaimFilter claimFilterSql claimFilterQ at h
  rw [if_pos ⟨hfragment, hsome⟩] at h
  obtain ⟨q, hq⟩ := Option.isSome_iff_exists.mp hsome
  rw [hq] at h
  cases hox : w.oxpullConditionQ db <;> simp [hox] at h

/-- The single-statement claim: the class's fragment and oxpull's. -/
theorem selects_postgresSelect (h : w.honoursTheClaimFilter db = true)
    (hown : w.hooks.OwnParams) :
    (w.postgresSelect db now).Selects c ↔
      w.Due db now c ∧ (∀ f ∈ w.hooks.fragment, (f w.hooks.params).Selects c) ∧ w.Allows db c := by
  have hsql : w.claimFilterSql db =
      (joined (w.hooks.fragment.toList ++ (w.oxpullConjuncts db).map Prod.fst),
        w.hooks.params.merge (w.oxpullParams db)) := by
    unfold claimFilterSql
    apply if_neg
    rintro ⟨hfragment, hq⟩
    rcases claimFilterSql_of_honours h with hsome | hnone
    · simp [Option.isNone_iff_eq_none.mp hfragment] at hsome
    · simp [hnone] at hq
  unfold postgresSelect
  rw [hsql]
  set params := (w.selectParams now).merge (w.hooks.params.merge (w.oxpullParams db)) with hparams
  have hox : ∀ name v, w.oxpullParams db name = some v → params name = some v := by
    intro name v hv
    simp [hparams, SqlParams.merge, hv]
  have hclass : ∀ name v, w.hooks.params name = some v → params name = some v := by
    intro name v hv
    have hname : name ∉ oxpullNames := by
      intro hmem
      rw [hown.apart name (List.mem_append_right _ hmem)] at hv
      cases hv
    simp [hparams, SqlParams.merge, hv, oxpullParams_eq_none hname]
  have hbase : ∀ name ∈ ["ready", "now", "queues"], params name = w.selectParams now name := by
    intro name hname
    have hsel : name ∈ selectNames := by
      simp only [List.mem_cons, List.not_mem_nil, or_false] at hname
      rcases hname with rfl | rfl | rfl <;> decide
    have hother : name ∉ oxpullNames := by
      simp only [List.mem_cons, List.not_mem_nil, or_false] at hname
      rcases hname with rfl | rfl | rfl <;> decide
    have hnone : w.oxpullParams db name = none := oxpullParams_eq_none hother
    simp [hparams, SqlParams.merge, hown.apart name hsel, hnone]
  rw [selects_both, selects_joined, List.forall_mem_append, selects_oxpullConjuncts hox]
  apply and_congr
  · apply selects_due
    · rw [hbase "ready" (by decide)]
      rfl
    · rw [hbase "now" (by decide)]
      rfl
    · rw [hbase "queues" (by decide)]
      rfl
  · apply and_congr_left'
    have heq : ∀ f ∈ w.hooks.fragment, f params = f w.hooks.params := fun f hf =>
      hown.closed f hf params hclass
    cases hf : w.hooks.fragment with
    | none => simp
    | some f => simp [heq f hf]

/-- The claim takes the rows that are due, that the class's condition holds of as far as the
engine's paths read it, that no limit in force covers, and that nothing holds back. -/
theorem selects_claims_iff (hagree : w.hooks.Agree) (hown : w.hooks.OwnParams) :
    (w.claims db engine now).Selects c ↔
      w.Due db now c ∧ w.hooks.Applies engine c ∧ w.Allows db c := by
  unfold claims claimPath
  by_cases hpg : engine.postgresql = true ∧ engine.skipLocked = true ∧
      w.honoursTheClaimFilter db = true
  · rw [if_pos hpg]
    unfold selectOn
    rw [selects_postgresSelect hpg.2.2 hown]
    apply and_congr_right'
    apply and_congr_left'
    unfold ClaimHooks.Applies
    cases hq : w.hooks.q with
    | none =>
      cases hf : w.hooks.fragment with
      | none => simp
      | some f => simp [hpg.1, hpg.2.1]
    | some q =>
      have hsome := (claimFilterSql_of_honours hpg.2.2).resolve_right (by simp [hq])
      obtain ⟨f, hf⟩ := Option.isSome_iff_exists.mp hsome
      simp [hf, hagree q hq f hf c]
  · rw [if_neg hpg]
    have hreadies : w.selectOn db now (if engine.skipLocked = true then .skipLocked
        else .optimistic) = w.readyQueryset db now := by
      split_ifs <;> rfl
    rw [hreadies, selects_readyQueryset]
    apply and_congr_right'
    apply and_congr_left'
    unfold ClaimHooks.Applies
    cases hq : w.hooks.q with
    | some q => simp
    | none =>
      cases hf : w.hooks.fragment with
      | none => simp
      | some f =>
        -- With a fragment alone, the single statement is refused only by the engine.
        have hhonours : w.honoursTheClaimFilter db = true := by
          unfold honoursTheClaimFilter claimFilterSql joined
          simp [hq, hf]
        have hengine : ¬ (engine.postgresql = true ∧ engine.skipLocked = true) := fun h =>
          hpg ⟨h.1, h.2, hhonours⟩
        simp [hengine]

/-- A class that leaves one queue to others, told to both hooks. -/
def leavesEmails : ClaimHooks where
  q := some (equals (fun c : Candidate => some c.row.queueName) fun _ => some "emails").negate
  fragment := some fun params => differs (fun c : Candidate => some c.row.queueName) fun _ =>
    (params "reserved").bind SqlValue.asText
  params name := if name = "reserved" then some (.text "emails") else none

/-- A worker of that class, with one task path at its limit. -/
def emailsLeft (hooks : ClaimHooks) : FilteringWorker :=
  ⟨[], hooks, true, { LimitedWorker.fresh with blockedPaths := ["app.pay"] }⟩

/-- No edges, and texts compared by `same`. -/
def noEdges (same : String → String → Bool) : ClaimTables := ⟨fun _ => none, [], same⟩

/-- A READY row of the queue. -/
def queued (taskPath queueName : String) : Candidate :=
  ⟨1, row ⟨taskPath, queueName, 0, none, none⟩ 3 0⟩

theorem selects_claims_emailsLeft :
    ((emailsLeft leavesEmails).claims (noEdges (· == ·)) ⟨true, true⟩ 5).Selects
        (queued "app.mail" "default") ∧
      ¬ ((emailsLeft leavesEmails).claims (noEdges (· == ·)) ⟨true, true⟩ 5).Selects
        (queued "app.mail" "emails") := by
  have hagree : (emailsLeft leavesEmails).hooks.Agree := by
    intro q hq f hf c
    cases hq
    cases hf
    rfl
  have hown : (emailsLeft leavesEmails).hooks.OwnParams := by
    constructor
    · intro f hf params hparams
      cases hf
      have hreserved := hparams "reserved" (.text "emails") rfl
      dsimp only
      rw [hreserved]
      rfl
    · decide
  constructor
  · apply (selects_claims_iff hagree hown).mpr
    refine ⟨⟨rfl, by simp [queued, row], .inl rfl⟩, by decide, ⟨by decide, by decide, ?_⟩⟩
    intro _ e he
    cases he
  · intro h
    exact absurd ((selects_claims_iff hagree hown).mp h).2.1 (by decide)

/-- The rule with the class's condition unqualified, and texts compared exactly. -/
def ClaimsAsWritten (w : FilteringWorker) (db : ClaimTables) (engine : Engine) (now : ℤ)
    (c : Candidate) : Prop :=
  (w.claims db engine now).Selects c ↔ w.Due db now c ∧ w.hooks.Means c ∧
    c.row.taskPath ∉ w.excludedPaths ∧ c.row.queueName ∉ w.excludedQueues ∧
    (w.workflows = true → c.Runnable db)

/-- A class whose fragment binds one of oxpull's names. -/
def leavesMail : ClaimHooks where
  q := some (equals (fun c : Candidate => some c.row.taskPath) fun _ => some "app.mail").negate
  fragment := some fun params => noneOf (· == ·) (fun c : Candidate => some c.row.taskPath) fun _ =>
    (params "ox_blocked_paths").bind SqlValue.asTexts
  params name := if name = "ox_blocked_paths" then some (.texts ["app.mail"]) else none

/-- A collation that folds case. -/
def foldsCase (s t : String) : Bool := s.toList.map Char.toLower == t.toList.map Char.toLower

/-- A fragment alone is not read without PostgreSQL; a collation that folds case excludes more
than the blocked path; and a class's parameter under one of oxpull's names is replaced. -/
theorem claims_not_as_written :
    (∃ hooks c, hooks.Agree ∧ hooks.OwnParams ∧
      ¬ ClaimsAsWritten (emailsLeft hooks) (noEdges (· == ·)) ⟨false, false⟩ 5 c) ∧
    (∃ hooks same c, hooks.Agree ∧ hooks.OwnParams ∧
      ¬ ClaimsAsWritten (emailsLeft hooks) (noEdges same) ⟨false, true⟩ 5 c) ∧
    ∃ hooks c, hooks.Agree ∧
      ¬ ClaimsAsWritten (emailsLeft hooks) (noEdges (· == ·)) ⟨true, true⟩ 5 c := by
  refine ⟨⟨{ leavesEmails with q := none }, queued "app.mail" "emails", ?_, ?_, ?_⟩,
    ⟨⟨none, none, fun _ => none⟩, foldsCase, queued "app.PAY" "default", ?_, ?_, ?_⟩,
    ⟨leavesMail, queued "app.mail" "default", ?_, ?_⟩⟩
  · intro q hq
    cases hq
  · constructor
    · intro f hf params hparams
      cases hf
      have hreserved := hparams "reserved" (.text "emails") rfl
      dsimp only
      rw [hreserved]
      rfl
    · decide
  · intro h
    exact absurd (h.mp (by decide +kernel)).2.1 (by decide +kernel)
  · intro q hq
    cases hq
  · constructor
    · intro f hf
      cases hf
    · decide
  · intro h
    have hpath : "app.PAY" ∉ ["app.pay"] := by decide
    have hrunnable : (queued "app.PAY" "default").Runnable (noEdges foldsCase) :=
      fun e he => by cases he
    have hdue : (emailsLeft ⟨none, none, fun _ => none⟩).Due (noEdges foldsCase) 5
        (queued "app.PAY" "default") := ⟨rfl, by simp [queued, row], .inl rfl⟩
    have hselects := h.mpr ⟨hdue, trivial, hpath, List.not_mem_nil, fun _ => hrunnable⟩
    exact absurd hselects (by decide +kernel)
  · intro q hq f hf c
    cases hq
    cases hf
    change (equals _ _).negate.Selects c ↔ (noneOf _ _ fun _ => some ["app.mail"]).Selects c
    rw [selects_negate_equals, selects_noneOf_notNull]
    simp
  · intro h
    exact absurd (h.mp (by decide +kernel)).2.1 (by decide +kernel)

/-! The same rule as the claim's select elsewhere: one row of `_ready_queryset`, and what the
accounting lets a claim take. -/

/-- The filter of this worker, on one row of the table. -/
def toWorker (w : FilteringWorker) (db : ClaimTables) (pk : TaskId) (workerId : String)
    (lockTimeout : ℤ) : Worker :=
  ⟨workerId, w.queues, lockTimeout, fun t =>
    decide (((w.claimFilterQ db).getD always).Selects ⟨pk, t⟩)⟩

theorem selects_readyQueryset_iff_ready (hsame : ∀ a b, db.same a b = decide (a = b))
    {pk : TaskId} {t : OxTask} {workerId : String} {lockTimeout : ℤ} :
    (w.readyQueryset db now).Selects ⟨pk, t⟩ ↔
      t.Ready (w.toWorker db pk workerId lockTimeout) now := by
  unfold readyQueryset
  rw [selects_both, selects_due rfl rfl rfl]
  unfold OxTask.Ready toWorker
  rw [decide_eq_true_iff]
  constructor
  · rintro ⟨hdue, hfilter⟩
    have hqueue := hdue.queue
    simp only [hsame, decide_eq_true_iff, exists_eq_right'] at hqueue
    exact ⟨hdue.ready, hdue.runAfter, hqueue, hfilter⟩
  · rintro ⟨hready, hdue, hqueue, hfilter⟩
    refine ⟨⟨hready, hdue, ?_⟩, hfilter⟩
    simpa only [hsame, decide_eq_true_iff, exists_eq_right'] using hqueue

theorem allows_iff_admits (hsame : ∀ a b, db.same a b = decide (a = b)) :
    w.Allows db c ↔ w.view.Admits ⟨c.row.taskPath, c.row.queueName⟩ ∧
      (w.workflows = true → c.Runnable db) := by
  have hnot : ∀ (text : String) (l : List String),
      (∀ other ∈ l, db.same text other = false) ↔ text ∉ l := by
    intro text l
    simp only [hsame, decide_eq_false_iff_not]
    exact ⟨fun h hmem => h text hmem rfl, fun h other hmem heq => h (heq ▸ hmem)⟩
  constructor
  · intro h
    exact ⟨⟨(hnot _ _).mp h.paths, (hnot _ _).mp h.queues⟩, h.runnable⟩
  · rintro ⟨⟨hpath, hqueue⟩, hrunnable⟩
    exact ⟨(hnot _ _).mpr hpath, (hnot _ _).mpr hqueue, hrunnable⟩

end FilteringWorker

end DjangoOx
