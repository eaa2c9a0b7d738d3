import DjangoOx.Schedule.Dispatch
import Mathlib.Data.List.MinMax

/-! The tick log under passes and prunes: a prune only deletes ticks that a newer one supersedes, so
the newest tick ever recorded stays. -/
namespace DjangoOx

open Machine

namespace DispatchState

variable {src : Source} {s s' : DispatchState}

/-- Gone from the log already, or with a newer tick recorded at some time. -/
def Superseded (s : DispatchState) (r : TickRow) : Prop :=
  r ∈ s.ever ∧ (r ∉ s.log ∨ ∃ y ∈ s.ever, r.scheduledFor < y.scheduledFor)

/-- What a prune may rely on. -/
def PruneOk (s : DispatchState) : TickPrune → Prop
  | .paged _ _ _ rows => ∀ r ∈ rows, r ∈ s.ever
  | .sorted _ _ _ _ old older => (∀ r ∈ old, r ∈ s.ever) ∧ ∀ r ∈ older, s.Superseded r
  | .doomed _ _ _ _ doomed => ∀ r ∈ doomed, s.Superseded r
  | _ => True

/-- What a run keeps of the log. An instant under insertion is held by one pass, and keys are never
given twice. -/
structure LogInv (s : DispatchState) : Prop where
  recorded : ∀ r ∈ s.log, r ∈ s.ever
  keys : (s.ever.map (·.pk)).Nodup
  fresh : ∀ r ∈ s.ever, r.pk < s.nextPk
  top : ∀ e ∈ s.ever, ∃ r ∈ s.log, e.scheduledFor ≤ r.scheduledFor
  claims : ∀ p t pk, (s.passes p).claim = some (t, pk) →
    s.inserting t = some p ∧ pk < s.nextPk ∧ (∀ r ∈ s.ever, r.pk ≠ pk) ∧
      ∀ q u, (s.passes q).claim = some (u, pk) → q = p
  free : ∀ t p, s.inserting t = some p → t ∉ instants s.log
  prunes : ∀ q, s.PruneOk (s.prunes q)

theorem mem_instants {log : List TickRow} {t : ℤ} :
    t ∈ instants log ↔ ∃ r ∈ log, r.scheduledFor = t := by
  simp [instants]

theorem LogInv.eq_of_pk (hi : s.LogInv) {a b : TickRow} (ha : a ∈ s.ever) (hb : b ∈ s.ever)
    (h : a.pk = b.pk) : a = b :=
  List.inj_on_of_nodup_map hi.keys ha hb h

theorem Superseded.mono {r : TickRow} (h : s.Superseded r) (hever : s.ever ⊆ s'.ever)
    (hlog : ∀ r ∈ s.ever, r ∈ s'.log → r ∈ s.log) : s'.Superseded r := by
  obtain ⟨hr, hn | ⟨y, hy, hlt⟩⟩ := h
  · exact ⟨hever hr, .inl fun hm => hn (hlog r hr hm)⟩
  · exact ⟨hever hr, .inr ⟨y, hever hy, hlt⟩⟩

theorem PruneOk.mono {x : TickPrune} (h : s.PruneOk x) (hever : s.ever ⊆ s'.ever)
    (hlog : ∀ r ∈ s.ever, r ∈ s'.log → r ∈ s.log) : s'.PruneOk x := by
  cases x with
  | idle => trivial
  | keyed => trivial
  | paging => trivial
  | paged => exact fun r hr => hever (h r hr)
  | sorted =>
    exact ⟨fun r hr => hever (h.1 r hr), fun r hr => (h.2 r hr).mono hever hlog⟩
  | doomed => exact fun r hr => (h r hr).mono hever hlog

/-- A step that leaves the log, its keys and its locks alone. -/
theorem LogInv.of_eq (hi : s.LogInv) (hlog : s'.log = s.log) (hever : s'.ever = s.ever)
    (hpk : s'.nextPk = s.nextPk) (hins : s'.inserting = s.inserting)
    (hclaim : ∀ p t pk, (s'.passes p).claim = some (t, pk) → (s.passes p).claim = some (t, pk))
    (hprune : ∀ q, s.PruneOk (s'.prunes q)) : s'.LogInv where
  recorded := by
    rw [hlog, hever]
    exact hi.recorded
  keys := by
    rw [hever]
    exact hi.keys
  fresh := by
    rw [hever, hpk]
    exact hi.fresh
  top := by
    rw [hlog, hever]
    exact hi.top
  claims p t pk h := by
    obtain ⟨hi₁, hi₂, hi₃, hi₄⟩ := hi.claims p t pk (hclaim p t pk h)
    rw [hins, hpk, hever]
    exact ⟨hi₁, hi₂, hi₃, fun q u hq => hi₄ q u (hclaim q u pk hq)⟩
  free := by
    rw [hins, hlog]
    exact hi.free
  prunes q := (hprune q).mono (by simp [hever]) fun r _ hr => hlog ▸ hr

theorem LogInv.setPass {p : ℕ} {x : DispatchPass} (hi : s.LogInv)
    (hx : ∀ t pk, x.claim = some (t, pk) → (s.passes p).claim = some (t, pk)) :
    (s.setPass p x).LogInv := by
  refine hi.of_eq rfl rfl rfl rfl (fun q t pk h => ?_) hi.prunes
  rw [passes_setPass] at h
  by_cases hq : q = p
  · rw [if_pos hq] at h
    exact hq ▸ hx t pk h
  · rwa [if_neg hq] at h

theorem LogInv.setPrune {q : ℕ} {x : TickPrune} (hi : s.LogInv) (hx : s.PruneOk x) :
    (s.setPrune q x).LogInv := by
  refine hi.of_eq rfl rfl rfl rfl (fun _ _ _ h => h) fun k => ?_
  rw [prunes_setPrune]
  by_cases hk : k = q
  · rwa [if_pos hk]
  · rw [if_neg hk]
    exact hi.prunes k

theorem inserting_release {p : ℕ} {t : ℤ} {q : ℕ} :
    (s.release p).inserting t = some q ↔ s.inserting t = some q ∧ q ≠ p := by
  unfold DispatchState.release
  by_cases h : s.inserting t = some p
  · simp only [h, if_true, reduceCtorEq, Option.some.injEq, false_iff, not_and, not_not]
    exact fun h => h.symm
  · simp only [h, if_false]
    constructor
    · intro hq
      refine ⟨hq, ?_⟩
      rintro rfl
      exact h hq
    · exact fun hq => hq.1

theorem claim_release {p q : ℕ} {t : ℤ} {pk : ℕ} :
    ((s.release p).passes q).claim = some (t, pk) ↔
      q ≠ p ∧ (s.passes q).claim = some (t, pk) := by
  change ((s.setPass p .idle).passes q).claim = some (t, pk) ↔ _
  rw [passes_setPass]
  by_cases hq : q = p
  · simp [hq, DispatchPass.claim]
  · simp [hq]

theorem LogInv.release {p : ℕ} (hi : s.LogInv) : (s.release p).LogInv := by
  refine { hi with
    claims := fun q t pk h => ?_
    free := fun t q h => hi.free t q (inserting_release.mp h).1
    prunes := fun q => (hi.prunes q).mono (fun _ h => h) fun _ _ h => h }
  obtain ⟨hq, h⟩ := claim_release.mp h
  obtain ⟨hins, hpk, hnew, huniq⟩ := hi.claims q t pk h
  exact ⟨inserting_release.mpr ⟨hins, hq⟩, hpk, hnew,
    fun k u hk => huniq k u (claim_release.mp hk).2⟩

/-- The tick row goes in, uncommitted, under a key of its own. -/
theorem LogInv.insert {p : ℕ} {d : Admission} (hi : s.LogInv)
    (hlog : d.scheduledFor ∉ instants s.log) (hins : s.inserting d.scheduledFor = none)
    (hp : (s.passes p).claim = none) :
    LogInv { s.setPass p (.claimed d s.nextPk) with
      nextPk := s.nextPk + 1
      inserting := Function.update s.inserting d.scheduledFor (some p) } := by
  have hold : ∀ {q t pk}, ((s.setPass p (.claimed d s.nextPk)).passes q).claim = some (t, pk) →
      q = p ∧ t = d.scheduledFor ∧ pk = s.nextPk ∨ q ≠ p ∧ (s.passes q).claim = some (t, pk) := by
    intro q t pk h
    rw [passes_setPass] at h
    by_cases hq : q = p
    · rw [if_pos hq] at h
      obtain ⟨rfl, rfl⟩ := Prod.mk.inj (Option.some.inj h)
      exact .inl ⟨hq, rfl, rfl⟩
    · rw [if_neg hq] at h
      exact .inr ⟨hq, h⟩
  refine { hi with
    fresh := fun r hr => (hi.fresh r hr).trans (Nat.lt_succ_self _)
    claims := fun q t pk h => ?_
    free := fun t q h => ?_
    prunes := fun q => (hi.prunes q).mono (fun _ h => h) fun _ _ h => h }
  · rcases hold h with ⟨rfl, rfl, rfl⟩ | ⟨hq, h⟩
    · refine ⟨Function.update_self .., Nat.lt_succ_self _, fun r hr => (hi.fresh r hr).ne,
        fun k u hk => ?_⟩
      rcases hold hk with ⟨rfl, -, -⟩ | ⟨-, hk⟩
      · rfl
      · exact absurd (hi.claims k u _ hk).2.1 (lt_irrefl _)
    · obtain ⟨hi₁, hi₂, hi₃, hi₄⟩ := hi.claims q t pk h
      have hne : t ≠ d.scheduledFor := by
        rintro rfl
        simp [hins] at hi₁
      refine ⟨(Function.update_of_ne hne _ _).trans hi₁, hi₂.trans (Nat.lt_succ_self _), hi₃,
        fun k u hk => ?_⟩
      rcases hold hk with ⟨-, -, hpk⟩ | ⟨-, hk⟩
      · omega
      · exact hi₄ k u hk
  · change Function.update s.inserting d.scheduledFor (some p) t = some q at h
    by_cases ht : t = d.scheduledFor
    · exact ht ▸ hlog
    · rw [Function.update_of_ne ht] at h
      exact hi.free t q h

/-- The pass commits its tick. -/
theorem LogInv.commit {p j : ℕ} {r : TickRow} (hi : s.LogInv)
    (hc : (s.passes p).claim = some (r.scheduledFor, j)) (hpk : r.pk = j) :
    LogInv { s.release p with log := r :: s.log, ever := r :: s.ever } := by
  obtain ⟨hins, hlt, hnew, huniq⟩ := hi.claims p r.scheduledFor j hc
  have hr := hi.release (p := p)
  have hnotin : r ∉ s.ever := fun hm => hnew r hm hpk
  constructor
  · intro x hx
    rcases List.mem_cons.mp hx with rfl | hx
    · exact List.mem_cons_self
    · exact List.mem_cons_of_mem _ (hi.recorded x hx)
  · refine List.nodup_cons.mpr ⟨fun hm => ?_, hi.keys⟩
    obtain ⟨x, hx, hxe⟩ := List.mem_map.mp hm
    exact hnew x hx (hxe.trans hpk)
  · intro x hx
    rcases List.mem_cons.mp hx with rfl | hx
    · exact hpk ▸ hlt
    · exact hi.fresh x hx
  · intro e he
    rcases List.mem_cons.mp he with rfl | he
    · exact ⟨e, List.mem_cons_self, le_rfl⟩
    · obtain ⟨x, hx, hle⟩ := hi.top e he
      exact ⟨x, List.mem_cons_of_mem _ hx, hle⟩
  · intro q t k h
    obtain ⟨hi₁, hi₂, hi₃, hi₄⟩ := hr.claims q t k h
    obtain ⟨hq, hold⟩ := claim_release.mp h
    refine ⟨hi₁, hi₂, fun x hx => ?_, hi₄⟩
    rcases List.mem_cons.mp hx with rfl | hx
    · intro hk
      exact hq (huniq q t (hpk.symm.trans hk ▸ hold))
    · exact hi₃ x hx
  · intro t q h hm
    obtain ⟨hold, hq⟩ := inserting_release.mp h
    obtain ⟨x, hx, rfl⟩ := mem_instants.mp hm
    rcases List.mem_cons.mp hx with rfl | hx
    · exact hq (Option.some.inj (hold.symm.trans hins))
    · exact hi.free _ q hold (mem_instants.mpr ⟨x, hx, rfl⟩)
  · intro q
    refine (hi.prunes q).mono (List.subset_cons_self _ _) fun x hx hm => ?_
    rcases List.mem_cons.mp hm with rfl | hm
    · exact absurd hx hnotin
    · exact hm

/-- A prune deletes: the newest tick ever recorded is not among its rows. -/
theorem LogInv.delete {q : ℕ} {x : TickPrune} {doomed : List TickRow} (hi : s.LogInv)
    (hd : ∀ r ∈ doomed, s.Superseded r) (hx : ∀ s : DispatchState, s.PruneOk x) :
    LogInv { s.setPrune q x with log := s.log.filter fun r => r.pk ∉ doomed.map (·.pk) } := by
  have hsub : ∀ r ∈ s.log.filter (fun r => r.pk ∉ doomed.map (·.pk)), r ∈ s.log :=
    fun r hr => (List.mem_filter.mp hr).1
  refine { hi with
    recorded := fun r hr => hi.recorded r (hsub r hr)
    top := fun e he => ?_
    free := fun t p h hm => ?_
    prunes := fun k => ?_ }
  · obtain ⟨m, hm⟩ : ∃ m, m ∈ s.ever.argmax (·.scheduledFor) := by
      cases h : s.ever.argmax (·.scheduledFor) with
      | none =>
        have hnil : s.ever = [] := List.argmax_eq_none.mp h
        change e ∈ s.ever at he
        simp [hnil] at he
      | some m => exact ⟨m, rfl⟩
    have hmax : ∀ y ∈ s.ever, y.scheduledFor ≤ m.scheduledFor :=
      fun y hy => List.le_of_mem_argmax hy hm
    obtain ⟨r, hr, hle⟩ := hi.top m (List.argmax_mem hm)
    refine ⟨r, List.mem_filter.mpr ⟨hr, ?_⟩, (hmax e he).trans hle⟩
    simp only [decide_not, Bool.not_eq_eq_eq_not, Bool.not_true, decide_eq_false_iff_not]
    intro hmem
    obtain ⟨r', hr', hpk⟩ := List.mem_map.mp hmem
    obtain ⟨hev, hgone | ⟨y, hy, hlt⟩⟩ := hd r' hr'
    · exact hgone (hi.eq_of_pk hev (hi.recorded r hr) hpk ▸ hr)
    · obtain rfl := hi.eq_of_pk hev (hi.recorded r hr) hpk
      exact absurd ((hmax y hy).trans hle) (not_le.mpr hlt)
  · obtain ⟨r, hr, rfl⟩ := mem_instants.mp hm
    exact hi.free _ p h (mem_instants.mpr ⟨r, hsub r hr, rfl⟩)
  · change PruneOk _ ((s.setPrune q x).prunes k)
    rw [prunes_setPrune]
    by_cases hk : k = q
    · rw [if_pos hk]
      exact hx _
    · rw [if_neg hk]
      exact (hi.prunes k).mono (fun _ h => h) fun r _ h => hsub r h

theorem mem_batch {cutoff : ℤ} {size : ℕ} {after : Option ℕ} {r : TickRow}
    (h : r ∈ s.batch cutoff size after) : r ∈ s.log := by
  have hsort := List.mem_of_mem_take h
  exact (List.mem_filter.mp ((List.mem_insertionSort _).mp hsort)).1

/-- A row that sorts before another is superseded by it. -/
theorem LogInv.superseded_of_sortsBefore (hi : s.LogInv) {r : TickRow} {a : ℕ} (hr : r ∈ s.ever)
    (h : s.sortsBefore r.pk a = true) : s.Superseded r := by
  unfold sortsBefore at h
  obtain ⟨x, hx, h⟩ := List.any_eq_true.mp h
  obtain ⟨hpk, h⟩ := of_decide_eq_true h
  obtain ⟨y, hy, h⟩ := List.any_eq_true.mp h
  obtain ⟨-, hlt⟩ := of_decide_eq_true h
  obtain rfl := hi.eq_of_pk (hi.recorded x hx) hr hpk
  exact ⟨hr, .inr ⟨y, hi.recorded y hy, hlt⟩⟩

/-- A row that is not its schedule's newest is gone, or one is above it. -/
theorem LogInv.superseded_of_not_isNewest (hi : s.LogInv) {r : TickRow} (hr : r ∈ s.ever)
    (h : s.isNewest r.pk = false) : s.Superseded r := by
  refine ⟨hr, ?_⟩
  by_cases hm : r ∈ s.log
  · right
    have hall := List.any_eq_false.mp h r hm
    simp only [List.all_eq_true, true_and, decide_eq_true_eq, not_forall] at hall
    obtain ⟨y, hy, hlt⟩ := hall
    exact ⟨y, hi.recorded y hy, not_le.mp hlt⟩
  · exact .inl hm

theorem LogInv.decide {p pk : ℕ} {d : Admission} {e : ℤ} (hi : s.LogInv)
    (hp : (s.passes p).claim = some (d.scheduledFor, pk)) : (s.decide p d pk e).LogInv := by
  unfold DispatchState.decide
  split_ifs
  · exact hi.release
  · refine hi.setPass fun t k h => ?_
    exact hp.trans h

theorem log_of_start (h : s.Start) : s.LogInv := by
  obtain ⟨-, -, hl, hins, -, hp, hq, -, he⟩ := h
  refine ⟨by simp [hl], by simp [he], by simp [he], by simp [he], fun p t pk h => ?_,
    fun t p h => ?_, fun q => ?_⟩
  · simp [hp p, DispatchPass.claim] at h
  · simp [hins t] at h
  · rw [hq q]
    trivial

theorem log_step {a : DispatchAction} (hi : s.LogInv) (h : step src s a = some s') :
    s'.LogInv := by
  cases a with
  | plan p cached now =>
    simp only [step] at h
    split at h
    · obtain ⟨-, h⟩ := Option.ite_none_right_eq_some.mp h
      obtain ⟨t, -, rfl⟩ := Option.map_eq_some_iff.mp h
      have hread : (s.readClock p now).LogInv :=
        hi.of_eq rfl rfl rfl rfl (fun _ _ _ h => h) hi.prunes
      exact hread.setPass (by simp [DispatchPass.claim])
    · cases h
  | compare p since =>
    simp only [step] at h
    split at h
    · obtain ⟨-, h⟩ := Option.ite_none_right_eq_some.mp h
      split_ifs at h <;> obtain rfl := Option.some.inj h <;>
        exact hi.setPass (by simp [DispatchPass.claim])
    · cases h
  | check p =>
    simp only [step] at h
    split at h
    · split_ifs at h <;> obtain rfl := Option.some.inj h <;>
        exact hi.setPass (by simp [DispatchPass.claim])
    · cases h
  | refresh p registered =>
    simp only [step] at h
    split at h
    · obtain rfl := Option.some.inj h
      exact hi.setPass (by simp [DispatchPass.claim])
    · obtain ⟨-, h⟩ := Option.ite_none_right_eq_some.mp h
      split at h
      · next a _ _ _ _ c _ =>
        obtain rfl := Option.some.inj h
        have hset : (s.setPass p (.refreshed a c)).LogInv :=
          hi.setPass (by simp [DispatchPass.claim])
        exact hset.of_eq rfl rfl rfl rfl (fun _ _ _ h => h) hset.prunes
      · obtain rfl := Option.some.inj h
        exact hi.setPass (by simp [DispatchPass.claim])
    · cases h
  | recheckDue p now =>
    simp only [step] at h
    split at h
    · obtain ⟨-, h⟩ := Option.ite_none_right_eq_some.mp h
      have hread : (s.readClock p now).LogInv :=
        hi.of_eq rfl rfl rfl rfl (fun _ _ _ h => h) hi.prunes
      split_ifs at h
      · obtain rfl := Option.some.inj h
        exact hread.setPass (by simp [DispatchPass.claim])
      · obtain rfl := Option.some.inj h
        exact hread.release
    · cases h
  | insert p =>
    simp only [step] at h
    split at h
    · next d hp =>
      split_ifs at h with hlog hins
      · obtain rfl := Option.some.inj h
        exact hi.release
      · obtain rfl := Option.some.inj h
        exact hi.insert hlog hins (by simp [hp, DispatchPass.claim])
    · cases h
  | anchor p =>
    simp only [step] at h
    split at h
    · next d pk hp =>
      have hc : (s.passes p).claim = some (d.scheduledFor, pk) := by simp [hp, DispatchPass.claim]
      split_ifs at h
      · split at h
        · obtain rfl := Option.some.inj h
          exact hi.decide hc
        · obtain rfl := Option.some.inj h
          exact hi.setPass fun t k h => hc.trans h
      · obtain rfl := Option.some.inj h
        exact hi.setPass fun t k h => hc.trans h
    · cases h
  | latch p =>
    simp only [step] at h
    split at h
    · next d pk hp =>
      have hc : (s.passes p).claim = some (d.scheduledFor, pk) := by simp [hp, DispatchPass.claim]
      obtain ⟨-, h⟩ := Option.ite_none_right_eq_some.mp h
      obtain rfl := Option.some.inj h
      have hset : (s.setPass p (.latched d pk)).LogInv := hi.setPass fun t k h => hc.trans h
      exact hset.of_eq rfl rfl rfl rfl (fun _ _ _ h => h) hset.prunes
    · cases h
  | relook p =>
    simp only [step] at h
    split at h
    · next d pk hp =>
      have hc : (s.passes p).claim = some (d.scheduledFor, pk) := by simp [hp, DispatchPass.claim]
      split at h
      · obtain rfl := Option.some.inj h
        exact hi.decide hc
      · obtain rfl := Option.some.inj h
        exact hi.setPass fun t k h => hc.trans h
    · cases h
  | commit p task =>
    simp only [step] at h
    split at h
    · next d pk fires hp =>
      obtain rfl := Option.some.inj h
      refine hi.commit (j := pk) ?_ rfl
      simp [hp, DispatchPass.claim]
    · cases h
  | abort p =>
    obtain rfl := Option.some.inj h
    exact hi.release
  | startPrune q cutoff size =>
    simp only [step] at h
    split at h
    · obtain ⟨-, h⟩ := Option.ite_none_right_eq_some.mp h
      split_ifs at h <;> obtain rfl := Option.some.inj h <;> exact hi.setPrune trivial
    · cases h
  | readNewest q =>
    simp only [step] at h
    split at h
    · obtain rfl := Option.some.inj h
      exact hi.setPrune trivial
    · cases h
  | page q =>
    simp only [step] at h
    split at h
    · split at h
      · obtain rfl := Option.some.inj h
        exact hi.setPrune trivial
      · obtain rfl := Option.some.inj h
        refine hi.setPrune fun r hr => ?_
        exact hi.recorded r (mem_batch hr)
    · cases h
  | anchorPage q =>
    simp only [step] at h
    split at h
    · next cutoff size rows hq =>
      obtain rfl := Option.some.inj h
      have hok := hi.prunes q
      rw [hq] at hok
      exact hi.setPrune hok
    · cases h
  | sort q =>
    simp only [step] at h
    split at h
    · next cutoff size anchor rows hq =>
      obtain rfl := Option.some.inj h
      have hok : ∀ r ∈ rows, r ∈ s.ever := by
        have := hi.prunes q
        rwa [hq] at this
      refine hi.setPrune ⟨fun r hr => hok r (List.mem_filter.mp hr).1, fun r hr => ?_⟩
      obtain ⟨hold, hany⟩ := List.mem_filter.mp hr
      have hev := hok r (List.mem_filter.mp hold).1
      cases anchor with
      | none => simp at hany
      | some a => exact hi.superseded_of_sortsBefore hev hany
    · cases h
  | recheck q =>
    simp only [step] at h
    split at h
    · next cutoff size anchor rows old older hq =>
      obtain rfl := Option.some.inj h
      have hok : (∀ r ∈ old, r ∈ s.ever) ∧ ∀ r ∈ older, s.Superseded r := by
        have := hi.prunes q
        rwa [hq] at this
      refine hi.setPrune fun r hr => ?_
      obtain ⟨hold, hnew⟩ := List.mem_filter.mp hr
      by_cases hm : r ∈ older
      · exact hok.2 r hm
      · refine hi.superseded_of_not_isNewest (hok.1 r hold) ?_
        simpa [hm] using hnew
    · cases h
  | delete q =>
    simp only [step] at h
    split at h
    · next cutoff size anchor rows doomed hq =>
      obtain rfl := Option.some.inj h
      have hok : ∀ r ∈ doomed, s.Superseded r := by
        have := hi.prunes q
        rwa [hq] at this
      refine hi.delete hok fun _ => ?_
      split_ifs <;> trivial
    · cases h
  | stopPrune q =>
    obtain rfl := Option.some.inj h
    exact hi.setPrune trivial
  | _ =>
    -- a writer of the row leaves the log alone
    simp only [step] at h
    repeat' split at h
    all_goals simp only [Option.map_eq_some_iff, Option.some.injEq, reduceCtorEq] at h
    all_goals
      obtain ⟨_, -, rfl⟩ := h
      exact hi.of_eq rfl rfl rfl rfl (fun _ _ _ h => h) hi.prunes

theorem reachable_log (h : (dispatchSystem src).Reachable s) : s.LogInv :=
  h.invariant LogInv (fun _ hs => log_of_start hs) fun _ _ _ hi hs => log_step hi hs

/-- The newest tick ever recorded is still in the log. -/
theorem newest_kept (h : (dispatchSystem src).Reachable s) {e : TickRow} (he : e ∈ s.ever) :
    ∃ r ∈ s.log, e.scheduledFor ≤ r.scheduledFor :=
  (reachable_log h).top e he

end DispatchState

end DjangoOx
