import DjangoOx.Limits.Admissions

/-! At most so many claims on one window of a rate limit. -/
namespace DjangoOx

open Machine

namespace RateState

variable {W : ℕ} {limits : List RateLimit} {L : RateLimit} {s s' : RateState W} {w : Fin W}
  {c : RateClaimer} {g : ℕ}

theorem knows_fresh : s.Knows L .fresh :=
  ⟨fun _ h => (nomatch h), fun _ _ h => (nomatch h), fun _ h => (nomatch h)⟩

theorem rate_of_start (hpos : 0 < L.limit + W) (h : s.Start) : s.RateInv L := by
  obtain ⟨hwin, hw, ha, -⟩ := h
  refine ⟨fun win hwin' => by simp [hwin] at hwin', fun g => ?_, fun v => ?_, fun g hg => ?_⟩
  · have hnone : s.permits L g = ∅ := by
      refine Set.eq_empty_iff_forall_notMem.mpr fun v hv => ?_
      change (s.workers v).Permitted L g at hv
      rw [hw v] at hv
      cases hv.1
    rw [ha, hnone, Set.ncard_empty]
    omega
  · rw [hw v]
    exact knows_fresh
  · exact absurd (ha L g) hg

/-- What a worker knows stays, when it drops its claim and its read. -/
theorem Knows.drop (h : s.Knows L c) {stale : Bool} {p : RatePhase}
    (hr : p.reading = none ∨ p.reading = some .probing) (hp : p.pending = none) :
    s.Knows L { c with stale := stale, phase := p } := by
  refine ⟨h.seen, fun rows todo hread => ?_, fun rec hrec => by simp [hp] at hrec⟩
  rcases hr with hr | hr <;> simp [hr] at hread

/-- The phase of a claim moves on, and with it nothing the worker knows. -/
theorem Knows.pass (h : s.Knows L c) {rec : Recording} {p : RatePhase}
    (hrec : c.phase.pending = some rec) (hr : p.reading = none ∨ p.reading = some .probing)
    (hp : ∀ rec', p.pending = some rec' → rec'.views = rec.views) :
    s.Knows L { c with phase := p } := by
  refine ⟨h.seen, fun rows todo hread => ?_, fun rec' hrec' g hg => ?_⟩
  · rcases hr with hr | hr <;> simp [hr] at hread
  · rw [hp rec' hrec'] at hg
    exact h.views rec hrec g hg

theorem workers_tryRoll {l : RateLimit} {windowId : ℕ} (h : s.tryRoll w l windowId = some s') :
    s'.workers = s.workers := by
  unfold tryRoll at h
  split at h
  · obtain ⟨-, h⟩ := Option.ite_none_right_eq_some.mp h
    obtain rfl := Option.some.inj h
    rfl
  · cases h

theorem windows_tryRoll {l : RateLimit} {windowId : ℕ} (h : s.tryRoll w l windowId = some s') :
    s'.windows = Function.update s.windows l (some ⟨windowId + 1, 0, s.now⟩) ∧
      ∃ win, s.windows l = some win ∧ win.windowId = windowId := by
  unfold tryRoll at h
  split at h
  · next win hw =>
    obtain ⟨⟨hid, -⟩, h⟩ := Option.ite_none_right_eq_some.mp h
    obtain rfl := Option.some.inj h
    exact ⟨rfl, win, hw, hid⟩
  · cases h

theorem RateInv.roll (hi : s.RateInv L) {rows : RateLimit → ReadRow} {l : RateLimit}
    {todo : List RateLimit} (hr : (s.workers w).phase.reading = some (.rolling rows (l :: todo)))
    (hroll : s.tryRoll w l (rows l).windowId = some s') :
    (s'.setWorker w { s.workers w with
      phase := (s.workers w).phase.setReading
        (.rolling (Function.update rows l ⟨(rows l).windowId + 1, 0, false⟩) todo) }).RateInv L := by
  have hw := workers_tryRoll hroll
  obtain ⟨hwin, win, hold, hid⟩ := windows_tryRoll hroll
  have hi' := hi.tryRoll hroll
  have hr' : (s'.workers w).phase.reading = some (.rolling rows (l :: todo)) := hw ▸ hr
  have hopened : s'.windows l = some ⟨(rows l).windowId + 1, 0, s.now⟩ := by
    rw [hwin, Function.update_self]
  rw [← hw]
  refine hi'.read hr' (fun g hg => ?_) fun rows' todo' heq => ?_
  · obtain ⟨hid', hused⟩ := hg
    by_cases hl : L = l
    · subst hl
      rw [Function.update_self] at hid' hused
      exact .inr ⟨_, hopened, hid', hused⟩
    · rw [Function.update_of_ne hl] at hid' hused
      exact .inl ⟨hid', hused⟩
  · cases heq
    by_cases hl : L = l
    · subst hl
      rw [Function.update_self]
      exact ⟨_, hopened, le_rfl⟩
    · rw [Function.update_of_ne hl]
      exact (hi'.knows w).reading rows _ hr'

/-- What an interrupted statement may have left behind keeps the bound. -/
theorem RateInv.interruptedRead (hi : s.RateInv L) (landed : Bool) (r : Option Reading) :
    (s.interruptedRead w landed r).RateInv L ∧
      (s.interruptedRead w landed r).workers = s.workers := by
  unfold RateState.interruptedRead
  split
  · next rows l todo =>
    split_ifs
    · cases hroll : s.tryRoll w l (rows l).windowId with
      | none => exact ⟨hi, rfl⟩
      | some s₁ => exact ⟨hi.tryRoll hroll, workers_tryRoll hroll⟩
    · exact ⟨hi, rfl⟩
  · exact ⟨hi, rfl⟩

theorem RateInv.interruptedCount (hi : s.RateInv L) (landed : Bool) (l : RateLimit)
    (windowId : ℕ) : (s.interruptedCount landed l windowId).RateInv L ∧
      (s.interruptedCount landed l windowId).workers = s.workers := by
  unfold RateState.interruptedCount
  split_ifs
  · cases hcount : s.tryCount l windowId with
    | none => exact ⟨hi, rfl⟩
    | some s₁ =>
      refine ⟨hi.tryCount hcount, ?_⟩
      obtain ⟨win, -, -, heq⟩ := tryCount_eq_some hcount
      rw [Option.getD_some, heq]
  · exact ⟨hi, rfl⟩

theorem step_rate {a : RateAction W} (hL : L ∈ limits) (hi : s.RateInv L)
    (h : step limits s a = some s') : s'.RateInv L := by
  have hknows := fun w => hi.knows w
  cases a with
  | tick now =>
    obtain rfl := Option.some.inj h
    exact hi.rewindow rfl rfl rfl (fun _ hg => hg) fun win' hw => .inl ⟨win', hw, rfl, le_rfl⟩
  | refresh w due =>
    simp only [step] at h
    split at h
    · next hphase =>
      split_ifs at h with hlook
      · obtain rfl := Option.some.inj h
        refine hi.setWorker (fun g hp => ?_) (fun g hf => ?_)
          ((hknows w).drop (.inr rfl) rfl)
        · unfold RateClaimer.Permitted
          rw [hphase]
          exact hp.resolve_right id
        · exact absurd hf (RateClaimer.not_uncounted (by rw [hphase]; rfl))
      · obtain rfl := Option.some.inj h
        refine hi.setWorker (fun g hp => ?_) (fun g hf => ?_) ((hknows w).drop (.inl rfl) rfl)
        · unfold RateClaimer.Permitted
          rw [hphase]
          exact ⟨by simpa using (not_or.mp hlook).1, hp⟩
        · exact absurd hf (RateClaimer.not_uncounted (by rw [hphase]; rfl))
    · cases h
  | probe w l =>
    simp only [step] at h
    split at h
    · obtain rfl := Option.some.inj h
      have hk := hknows w
      exact hi.setWorker (fun g hp => hp) (fun g hf => hf) ⟨hk.seen, hk.reading, hk.views⟩
    · cases h
  | seed w l =>
    simp only [step] at h
    split at h
    · next hr hnone =>
      obtain rfl := Option.some.inj h
      refine hi.rewindow rfl rfl rfl (fun g hg => ?_) fun win' hw => ?_
      · obtain ⟨win, hw, hle⟩ := hg
        have hl : L ≠ l := by
          rintro rfl
          simp [hnone] at hw
        exact ⟨win, (Function.update_of_ne hl _ _).trans hw, hle⟩
      · dsimp only at hw
        by_cases hl : L = l
        · subst hl
          right
          rintro ⟨win, hold, -⟩
          simp [hnone] at hold
        · rw [Function.update_of_ne hl] at hw
          exact .inl ⟨win', hw, rfl, le_rfl⟩
    · cases h
  | select w =>
    simp only [step] at h
    split at h
    · next hr =>
      obtain ⟨hall, h⟩ := Option.ite_none_right_eq_some.mp h
      obtain rfl := Option.some.inj h
      obtain ⟨win, hw⟩ := Option.ne_none_iff_exists'.mp (hall L hL)
      obtain ⟨hid, hused⟩ := readRow_of_some hw
      refine hi.read hr (fun g hg => .inr ⟨win, hw, ?_, ?_⟩) fun rows todo heq => ?_
      · rw [← hid]
        exact hg.1
      · rw [← hused]
        exact hg.2
      · cases heq
        exact ⟨win, hw, hid.le⟩
    · cases h
  | roll w =>
    simp only [step] at h
    split at h
    · next rows l todo hr =>
      have hlose : (s.setWorker w { s.workers w with
          phase := (s.workers w).phase.setReading (.rolling rows todo) }).RateInv L := by
        refine hi.read hr (fun g hg => .inl hg) fun rows' todo' heq => ?_
        cases heq
        exact (hknows w).reading rows _ hr
      split_ifs at h with hexpired
      · split at h
        · next s₁ hroll =>
          obtain rfl := Option.some.inj h
          exact hi.roll hr hroll
        · obtain rfl := Option.some.inj h
          exact hlose
      · obtain rfl := Option.some.inj h
        exact hlose
    · cases h
  | publish w =>
    simp only [step] at h
    split at h
    · next rows hphase =>
      obtain rfl := Option.some.inj h
      exact hi.publish hL (.inl ⟨hphase, rfl⟩) rfl rfl
    · next rec rows hphase =>
      obtain rfl := Option.some.inj h
      exact hi.publish hL (.inr ⟨rec, hphase, rfl⟩) rfl rfl
    · cases h
  | readRaises w landed database =>
    simp only [step] at h
    obtain ⟨hi₁, hw⟩ := hi.interruptedRead (w := w) landed (s.workers w).phase.reading
    generalize s.interruptedRead w landed (s.workers w).phase.reading = s₁ at h hi₁ hw
    split at h
    · next r hphase =>
      obtain rfl := Option.some.inj h
      rw [← hw] at hphase ⊢
      refine hi₁.setWorker (fun g hp => ?_) (fun g hf => ?_) ((hi₁.knows w).drop (.inl rfl) rfl)
      · unfold RateClaimer.Permitted
        rw [hphase]
        exact .inl hp
      · exact absurd hf (RateClaimer.not_uncounted (by rw [hphase]; rfl))
    · next rec r hphase =>
      rw [← hw] at hphase
      split_ifs at h with hdatabase
      · obtain rfl := Option.some.inj h
        exact hi₁.skipCount (.inr ⟨r, hphase⟩)
      · obtain rfl := Option.some.inj h
        rw [← hw]
        refine hi₁.raise (by rw [hphase]; rfl) (fun g hp => ?_) ((hi₁.knows w).drop (.inl rfl) rfl)
        by_cases hst : rec.Stands L g
        · exact .inr hst
        · left
          unfold RateClaimer.Permitted
          rw [hphase]
          exact ⟨hst, .inl hp.2⟩
    · cases h
  | claim w call =>
    simp only [step] at h
    split at h
    · next hphase =>
      obtain ⟨hclaim, h⟩ := Option.ite_none_right_eq_some.mp h
      obtain rfl := Option.some.inj h
      exact hi.claim hL hphase hclaim (.inl rfl)
    · cases h
  | claimRaises w call =>
    simp only [step] at h
    split at h
    · next hphase =>
      obtain ⟨-, h⟩ := Option.ite_none_right_eq_some.mp h
      obtain rfl := Option.some.inj h
      exact hi.claimRaises hphase
    · cases h
  | claimOptimistic w call =>
    simp only [step] at h
    split at h
    · next hphase =>
      obtain ⟨hclaim, h⟩ := Option.ite_none_right_eq_some.mp h
      obtain rfl := Option.some.inj h
      exact hi.claim hL hphase hclaim (.inr rfl)
    · cases h
  | reload w =>
    simp only [step] at h
    split at h
    · next rec hphase =>
      obtain rfl := Option.some.inj h
      have hrec : (s.workers w).phase.pending = some rec := by rw [hphase]; rfl
      refine hi.setWorker (fun g hp => ?_) (fun g hf => ?_)
        ((hknows w).pass hrec (.inl rfl) fun rec' h => by cases h; rfl)
      · unfold RateClaimer.Permitted
        rw [hphase]
        exact hp
      · unfold RateClaimer.Uncounted at hf
        rw [hrec] at hf
        exact hf
    · cases h
  | reloadLost w =>
    simp only [step] at h
    split at h
    · next rec hphase =>
      obtain rfl := Option.some.inj h
      refine hi.lose (show (s.workers w).phase.pending = some rec by rw [hphase]; rfl) rfl rfl rfl (fun g => ?_) (fun g hp => ?_)
        ((hknows w).drop (.inl rfl) rfl)
      · unfold losses Tally.add
        dsimp only
        omega
      · by_cases hst : rec.Stands L g
        · exact .inr hst
        · left
          unfold RateClaimer.Permitted
          rw [hphase]
          exact ⟨hst, hp⟩
    · cases h
  | reloadRaises w =>
    simp only [step] at h
    split at h
    · next rec hphase =>
      obtain rfl := Option.some.inj h
      refine hi.raise (by rw [hphase]; rfl) (fun g hp => ?_) ((hknows w).drop (.inl rfl) rfl)
      by_cases hst : rec.Stands L g
      · exact .inr hst
      · left
        unfold RateClaimer.Permitted
        rw [hphase]
        exact ⟨hst, hp.2⟩
    · cases h
  | claimNone w =>
    simp only [step] at h
    split at h
    · next hphase =>
      obtain rfl := Option.some.inj h
      refine hi.setWorker (fun g hp => ?_) (fun g hf => ?_) ((hknows w).drop (.inl rfl) rfl)
      · unfold RateClaimer.Permitted
        rw [hphase]
        exact hp.2
      · exact absurd hf (RateClaimer.not_uncounted (by rw [hphase]; rfl))
    · cases h
  | count w =>
    simp only [step] at h
    split at h
    · next call views l todo tries hphase =>
      have hrec : (s.workers w).phase.pending = some ⟨call, views, l :: todo, tries + 1⟩ := by
        rw [hphase]
        rfl
      split at h
      · -- a view without the limit has no claim to count on it
        next hseen =>
        obtain rfl := Option.some.inj h
        refine hi.setWorker (fun g hp => ?_) (fun g hf => ?_)
          ((hknows w).pass hrec (.inl rfl) fun rec' h => by cases h; rfl)
        · unfold RateClaimer.Permitted
          rw [hphase]
          exact hp
        · obtain ⟨rec', hrec', hst, hmem⟩ := hf
          obtain rfl := Option.some.inj (hrec.symm.trans hrec')
          refine ⟨_, rfl, hst, (List.mem_cons.mp hmem).resolve_left ?_⟩
          rintro rfl
          exact ((hknows w).views _ hrec g hst.2).2 hseen
      · next windowId hseen =>
        split at h
        · next s₁ hcount =>
          obtain rfl := Option.some.inj h
          exact hi.count hphase rfl hcount
        · obtain rfl := Option.some.inj h
          refine hi.setWorker (fun g hp => ?_) (fun g hf => ?_)
            ((hknows w).pass hrec (.inr rfl) fun rec' h => by cases h; rfl)
          · unfold RateClaimer.Permitted
            rw [hphase]
            exact ⟨hp.1, hp.2.resolve_right id⟩
          · obtain ⟨rec', hrec', hst, hmem⟩ := hf
            obtain rfl := Option.some.inj (hrec.symm.trans hrec')
            exact ⟨_, rfl, hst, hmem⟩
    · cases h
  | countRaises w landed database =>
    simp only [step] at h
    split at h
    · next rec hphase =>
      split at h
      · next l todo tries htodo htries =>
        split at h
        · cases h
        · next windowId hseen =>
          obtain ⟨hi₁, hw⟩ := hi.interruptedCount landed l windowId
          rw [← hw] at hphase
          split_ifs at h with hdatabase
          · obtain rfl := Option.some.inj h
            exact hi₁.skipCount (.inl hphase)
          · obtain rfl := Option.some.inj h
            rw [← hw]
            refine hi₁.raise (by rw [hphase]; rfl) (fun g hp => ?_)
              ((hi₁.knows w).drop (.inl rfl) rfl)
            by_cases hst : rec.Stands L g
            · exact .inr hst
            · left
              unfold RateClaimer.Permitted
              rw [hphase]
              exact ⟨hst, hp.2⟩
      · cases h
    · cases h
  | giveUp w =>
    simp only [step] at h
    split at h
    · next rec hphase =>
      split at h
      · obtain rfl := Option.some.inj h
        exact hi.skipCount (.inl hphase)
      · cases h
    · cases h
  | finish w =>
    simp only [step] at h
    split at h
    · next rec hphase =>
      obtain ⟨hdone, h⟩ := Option.ite_none_right_eq_some.mp h
      obtain rfl := Option.some.inj h
      refine hi.setWorker (fun g hp => ?_) (fun g hf => ?_) ((hknows w).drop (.inl rfl) rfl)
      · obtain ⟨hstale, hoffers⟩ := hp
        unfold RateClaimer.Permitted
        rw [hphase]
        refine ⟨fun hst => ?_, hoffers⟩
        have hany : (limits.any fun l => l.Covers rec.call) = true :=
          List.any_eq_true.mpr ⟨L, hL, by simpa using hst.1⟩
        simp [hany] at hstale
      · obtain ⟨rec', hrec', -, hmem⟩ := hf
        rw [hphase] at hrec'
        obtain rfl := Option.some.inj hrec'
        simp [hdone] at hmem
    · cases h
  | restart w =>
    simp only [step] at h
    split at h
    · next rec hrec =>
      obtain rfl := Option.some.inj h
      exact hi.raise hrec (fun g hp => by cases hp.1) knows_fresh
    · next hrec =>
      obtain rfl := Option.some.inj h
      exact hi.setWorker (fun g hp => by cases hp.1)
        (fun g hf => absurd hf (RateClaimer.not_uncounted hrec)) knows_fresh

/-- The id of a limit's window. -/
def windowId (s : RateState W) (l : RateLimit) : Option ℕ :=
  (s.windows l).map (·.windowId)

/-- What a step does to the windows: it opens the first one, or one worker opens the next. -/
inductive Opens (s s' : RateState W) : Prop
  | none : s'.rolls = s.rolls → s'.windowId = s.windowId → Opens s s'
  | seed (l : RateLimit) : s'.rolls = s.rolls → s.windowId l = none →
      s'.windowId = Function.update s.windowId l (some 0) → Opens s s'
  | roll (l : RateLimit) (g : ℕ) (w : Fin W) : s'.rolls = (l, g, w) :: s.rolls →
      s.windowId l = some g → s'.windowId = Function.update s.windowId l (some (g + 1)) →
      Opens s s'

theorem Opens.of_eq (hr : s'.rolls = s.rolls) (hw : s'.windows = s.windows) : s.Opens s' :=
  .none hr (by unfold windowId; rw [hw])

/-- A step that leaves the windows as another state has them. -/
theorem Opens.of_eq_right {s₁ : RateState W} (h : s.Opens s₁) (hr : s'.rolls = s₁.rolls)
    (hw : s'.windows = s₁.windows) : s.Opens s' := by
  have hid : s'.windowId = s₁.windowId := by
    unfold windowId
    rw [hw]
  cases h with
  | none h₁ h₂ => exact .none (hr.trans h₁) (hid.trans h₂)
  | seed l h₁ h₂ h₃ => exact .seed l (hr.trans h₁) h₂ (hid.trans h₃)
  | roll l g w h₁ h₂ h₃ => exact .roll l g w (hr.trans h₁) h₂ (hid.trans h₃)

theorem windowId_update {l : RateLimit} {win : RateWindow}
    (hw : s'.windows = Function.update s.windows l (some win)) :
    s'.windowId = Function.update s.windowId l (some win.windowId) := by
  funext l'
  unfold windowId
  rw [hw]
  by_cases hl : l' = l
  · subst hl
    simp
  · simp [hl]

theorem opens_tryRoll {l : RateLimit} {g : ℕ} (h : s.tryRoll w l g = some s') : s.Opens s' := by
  obtain ⟨hwin, win, hold, hid⟩ := windows_tryRoll h
  have hrolls : s'.rolls = (l, g, w) :: s.rolls := by
    unfold tryRoll at h
    split at h
    · obtain ⟨-, h⟩ := Option.ite_none_right_eq_some.mp h
      obtain rfl := Option.some.inj h
      rfl
    · cases h
  exact .roll l g w hrolls (by unfold windowId; rw [hold, ← hid]; rfl) (windowId_update hwin)

theorem opens_seed {l : RateLimit} {now : ℤ} (hnone : s.windows l = none)
    (hw : s'.windows = Function.update s.windows l (some ⟨0, 0, now⟩)) (hr : s'.rolls = s.rolls) :
    s.Opens s' := by
  have hid : s.windowId l = none := by
    unfold windowId
    rw [hnone]
    rfl
  exact .seed l hr hid (windowId_update hw)

theorem opens_tryCount {l : RateLimit} {g : ℕ} (h : s.tryCount l g = some s') : s.Opens s' := by
  obtain ⟨win, hold, -, rfl⟩ := tryCount_eq_some h
  refine .none rfl ?_
  rw [windowId_update rfl]
  have hsame : s.windowId l = some win.windowId := by
    unfold windowId
    rw [hold]
    rfl
  exact Function.update_eq_self_iff.mpr hsame.symm

theorem opens_interruptedRead (landed : Bool) (r : Option Reading) :
    s.Opens (s.interruptedRead w landed r) := by
  unfold interruptedRead
  split
  · next rows l todo =>
    split_ifs
    · cases hroll : s.tryRoll w l (rows l).windowId with
      | none => exact .of_eq rfl rfl
      | some s₁ => exact opens_tryRoll hroll
    · exact .of_eq rfl rfl
  · exact .of_eq rfl rfl

theorem opens_interruptedCount (landed : Bool) (l : RateLimit) (g : ℕ) :
    s.Opens (s.interruptedCount landed l g) := by
  unfold interruptedCount
  split_ifs
  · cases hcount : s.tryCount l g with
    | none => exact .of_eq rfl rfl
    | some s₁ => exact opens_tryCount hcount
  · exact .of_eq rfl rfl

theorem skipCount_frame (rec : Recording) : (s.skipCount w rec).rolls = s.rolls ∧
    (s.skipCount w rec).windows = s.windows := by
  unfold skipCount
  split <;> exact ⟨rfl, rfl⟩

theorem step_opens {a : RateAction W} (h : step limits s a = some s') : s.Opens s' := by
  cases a with
  | seed w l =>
    simp only [step] at h
    split at h
    · next hr hnone =>
      obtain rfl := Option.some.inj h
      exact opens_seed hnone rfl rfl
    · cases h
  | roll w =>
    simp only [step] at h
    split at h
    · split_ifs at h
      · split at h
        · next s₁ hroll =>
          obtain rfl := Option.some.inj h
          exact (opens_tryRoll hroll).of_eq_right rfl rfl
        · obtain rfl := Option.some.inj h
          exact .of_eq rfl rfl
      · obtain rfl := Option.some.inj h
        exact .of_eq rfl rfl
    · cases h
  | readRaises w landed database =>
    simp only [step] at h
    have hopens := s.opens_interruptedRead (w := w) landed (s.workers w).phase.reading
    generalize s.interruptedRead w landed (s.workers w).phase.reading = s₁ at h hopens
    split at h
    · obtain rfl := Option.some.inj h
      exact hopens.of_eq_right rfl rfl
    · split_ifs at h
      · obtain rfl := Option.some.inj h
        exact hopens.of_eq_right (skipCount_frame _).1 (skipCount_frame _).2
      · obtain rfl := Option.some.inj h
        exact hopens.of_eq_right rfl rfl
    · cases h
  | count w =>
    simp only [step] at h
    split at h
    · split at h
      · obtain rfl := Option.some.inj h
        exact .of_eq rfl rfl
      · split at h
        · next s₁ hcount =>
          obtain rfl := Option.some.inj h
          exact (opens_tryCount hcount).of_eq_right rfl rfl
        · obtain rfl := Option.some.inj h
          exact .of_eq rfl rfl
    · cases h
  | countRaises w landed database =>
    simp only [step] at h
    split at h
    · split at h
      · split at h
        · cases h
        · next g hseen =>
          have hopens := fun l => s.opens_interruptedCount landed l g
          split_ifs at h
          · obtain rfl := Option.some.inj h
            exact (hopens _).of_eq_right (skipCount_frame _).1 (skipCount_frame _).2
          · obtain rfl := Option.some.inj h
            exact (hopens _).of_eq_right rfl rfl
      · cases h
    · cases h
  | giveUp w =>
    simp only [step] at h
    split at h
    · split at h
      · obtain rfl := Option.some.inj h
        exact .of_eq (skipCount_frame _).1 (skipCount_frame _).2
      · cases h
    · cases h
  | _ =>
    simp only [step] at h
    repeat' split at h
    all_goals cases h
    all_goals exact .of_eq rfl rfl

/-- The windows opened before the current one, each by one worker. -/
structure RollInv (s : RateState W) : Prop where
  nodup : (s.rolls.map fun r => (r.1, r.2.1)).Nodup
  opened : ∀ l g, (l, g) ∈ (s.rolls.map fun r => (r.1, r.2.1)) ↔
    ∃ id, s.windowId l = some id ∧ g < id

theorem RollInv.opens (hi : s.RollInv) (h : s.Opens s') : s'.RollInv := by
  cases h with
  | none hr hw => exact ⟨hr ▸ hi.nodup, fun l g => by rw [hr, hw]; exact hi.opened l g⟩
  | seed l hr hnone hw =>
    refine ⟨hr ▸ hi.nodup, fun l' g => ?_⟩
    rw [hr, hw, hi.opened]
    by_cases hl : l' = l
    · subst hl
      simp [hnone]
    · rw [Function.update_of_ne hl]
  | roll l g w hr hid hw =>
    have hnew : (l, g) ∉ s.rolls.map fun r => (r.1, r.2.1) := by
      rw [hi.opened]
      rintro ⟨id, h, hlt⟩
      obtain rfl := Option.some.inj (hid.symm.trans h)
      omega
    refine ⟨?_, fun l' g' => ?_⟩
    · rw [hr, List.map_cons, List.nodup_cons]
      exact ⟨hnew, hi.nodup⟩
    · rw [hr, List.map_cons, List.mem_cons, hi.opened, hw]
      by_cases hl : l' = l
      · subst hl
        rw [Function.update_self, hid]
        simp only [Prod.mk.injEq, true_and, Option.some.injEq, exists_eq_left']
        omega
      · rw [Function.update_of_ne hl]
        simp [hl]

theorem roll_of_start (h : s.Start) : s.RollInv := by
  obtain ⟨hwin, -, -, -, -, -, hr⟩ := h
  refine ⟨by simp [hr], fun l g => ?_⟩
  simp [hr, windowId, hwin]

/-- With no worker there is no claim. -/
theorem admitted_of_no_worker {s : RateState 0} (h : (rateSystem 0 limits).Reachable s) :
    s.admitted L g = 0 := by
  have hstart : ∀ s : RateState 0, s.Start → s.admitted L g = 0 := by
    intro s hs
    obtain ⟨-, -, ha, -⟩ := hs
    exact ha L g
  refine h.invariant (fun s => s.admitted L g = 0) hstart fun s a s' hi hs => ?_
  cases a with
  | tick now =>
    obtain rfl := Option.some.inj hs
    exact hi
  | _ => exact Fin.elim0 ‹_›

/-- The id of a limit's window stays, or one worker moves it on by one. -/
theorem Opens.window (h : s.Opens s') {l : RateLimit} (hid : s.windowId l = some g) :
    s'.windowId l = some g ∧ (∀ w, (l, g, w) ∈ s'.rolls → (l, g, w) ∈ s.rolls) ∨
      s'.windowId l = some (g + 1) ∧ ∃ w, s'.rolls = (l, g, w) :: s.rolls := by
  cases h with
  | none hr hw =>
    left
    exact ⟨hw ▸ hid, fun w hmem => hr ▸ hmem⟩
  | seed l' hr hnone hw =>
    left
    have hl : l ≠ l' := by
      rintro rfl
      simp [hnone] at hid
    rw [hw, Function.update_of_ne hl]
    exact ⟨hid, fun w hmem => hr ▸ hmem⟩
  | roll l' g' w' hr hid' hw =>
    by_cases hl : l = l'
    · subst hl
      obtain rfl := Option.some.inj (hid'.symm.trans hid)
      right
      rw [hw, Function.update_self]
      exact ⟨rfl, w', hr⟩
    · left
      rw [hw, Function.update_of_ne hl]
      refine ⟨hid, fun w hmem => ?_⟩
      rw [hr, List.mem_cons] at hmem
      refine hmem.resolve_left fun heq => hl ?_
      cases heq
      rfl

/-- Each id that a limit's window has left was left once. -/
theorem RollInv.left_once (hi : s.RollInv) {l : RateLimit} (hid : s.windowId l = some g) (g' : ℕ) :
    g' < g ↔ ∃! w, (l, g', w) ∈ s.rolls := by
  have hopened := hi.opened l g'
  constructor
  · intro hlt
    obtain ⟨⟨l', g'', w⟩, hmem, heq⟩ := List.mem_map.mp (hopened.mpr ⟨g, hid, hlt⟩)
    obtain ⟨rfl, rfl⟩ := Prod.mk.inj heq
    refine ⟨w, hmem, fun v hv => ?_⟩
    have hinj := List.inj_on_of_nodup_map hi.nodup hv hmem rfl
    simpa using hinj
  · rintro ⟨w, hmem, -⟩
    obtain ⟨id, hid', hlt⟩ := hopened.mp (List.mem_map.mpr ⟨_, hmem, rfl⟩)
    obtain rfl := Option.some.inj (hid.symm.trans hid')
    exact hlt

theorem reachable_roll (h : (rateSystem W limits).Reachable s) : s.RollInv := by
  refine h.invariant RollInv (fun _ hs => roll_of_start hs) fun _ _ _ hi hs => ?_
  exact hi.opens (step_opens hs)

theorem reachable_rate (hpos : 0 < L.limit + W) (hL : L ∈ limits)
    (h : (rateSystem W limits).Reachable s) : s.RateInv L := by
  refine h.invariant (RateInv L) (fun _ hs => rate_of_start hpos hs) fun _ _ _ hi hs => ?_
  exact step_rate hL hi hs

end RateState

/-- The bound of a rate limit, and its windows. In every run, the claims under a limit on one of its
windows are at most `limit + W - 1`, and those that ran uncounted, raised or died before they were
recorded, or lost their row before it was read back. A window's id stays or moves on by one, by one
worker's roll, and each id that it has left was left once. -/
theorem rate_limit_bound {W : ℕ} {limits : List RateLimit} {s : RateState W}
    (h : (rateSystem W limits).Reachable s) :
    (∀ L ∈ limits, ∀ g, s.admitted L g ≤
      L.limit + W - 1 + s.uncounted L g + s.raised L g + s.lost L g) ∧
    (∀ a s', (rateSystem W limits).step s a = some s' → ∀ l g, s.windowId l = some g →
      s'.windowId l = some g ∧ (∀ w, (l, g, w) ∈ s'.rolls → (l, g, w) ∈ s.rolls) ∨
      s'.windowId l = some (g + 1) ∧ ∃ w, s'.rolls = (l, g, w) :: s.rolls) ∧
    ∀ l g, s.windowId l = some g → ∀ g', g' < g ↔ ∃! w, (l, g', w) ∈ s.rolls := by
  refine ⟨fun L hL g => ?_, fun a s' hs l g hid => ?_, fun l g hid g' => ?_⟩
  · by_cases hpos : 0 < L.limit + W
    · have hbound := (RateState.reachable_rate hpos hL h).bound g
      unfold RateState.losses at hbound
      omega
    · obtain rfl : W = 0 := by omega
      have hnone := RateState.admitted_of_no_worker (L := L) (g := g) h
      omega
  · exact (RateState.step_opens hs).window hid
  · exact (RateState.reachable_roll h).left_once hid g'

/-- A limit of one claim a minute on the queue "q". -/
def onePerMinute : RateLimit := ⟨"minute", 1, 60, [], ["q"]⟩

def minuteCall : LimitedCall := ⟨"t", "q"⟩

def idleRate (W : ℕ) : RateState W :=
  ⟨0, fun _ => none, fun _ => .fresh, fun _ _ => 0, fun _ _ => 0, fun _ _ => 0, fun _ _ => 0, []⟩

theorem idleRate_start (W : ℕ) : (idleRate W).Start :=
  ⟨fun _ => rfl, fun _ => rfl, fun _ _ => rfl, fun _ _ => rfl, fun _ _ => rfl, fun _ _ => rfl, rfl⟩

/-- Two workers read the same window, and each claims on it; one of them opens the next window
before it looks again. -/
def twoClaims : List (RateAction 2) :=
  [.refresh 0 false, .seed 0 onePerMinute, .select 0, .roll 0, .publish 0, .refresh 1 false,
    .select 1, .roll 1, .publish 1, .claim 0 minuteCall, .claim 1 minuteCall, .count 0, .finish 0,
    .tick 60, .refresh 0 false, .select 0, .roll 0, .publish 0]

theorem rate_limit_bound_two :
    ∃ s : RateState 2, (rateSystem 2 [onePerMinute]).run (idleRate 2) twoClaims = some s ∧
      s.admitted onePerMinute 0 = 2 ∧ s.windowId onePerMinute = some 1 ∧
      s.admitted onePerMinute 0 ≤ onePerMinute.limit + 2 - 1 + s.uncounted onePerMinute 0 +
        s.raised onePerMinute 0 + s.lost onePerMinute 0 := by
  have bound : ∀ s : RateState 2,
      (rateSystem 2 [onePerMinute]).run (idleRate 2) twoClaims = some s →
      s.admitted onePerMinute 0 ≤ onePerMinute.limit + 2 - 1 + s.uncounted onePerMinute 0 +
        s.raised onePerMinute 0 + s.lost onePerMinute 0 := fun s hrun =>
    (rate_limit_bound (.of_run (idleRate_start 2) hrun)).1 onePerMinute (by simp) 0
  exact ⟨_, rfl, rfl, rfl, bound _ rfl⟩

/-- One worker, whose first claim commits by compare-and-set and is gone when it is read back: the
worker drops it, and claims again on the same view. -/
theorem rate_limit_exceeded :
    ∃ s : RateState 1, (rateSystem 1 [onePerMinute]).run (idleRate 1)
      [.refresh 0 false, .seed 0 onePerMinute, .select 0, .roll 0, .publish 0,
        .claimOptimistic 0 minuteCall, .reloadLost 0, .claimOptimistic 0 minuteCall] = some s ∧
      s.windowId onePerMinute = some 0 ∧ s.uncounted onePerMinute 0 = 0 ∧
      s.raised onePerMinute 0 = 0 ∧
      ¬ s.admitted onePerMinute 0 ≤
        onePerMinute.limit + 1 - 1 + s.uncounted onePerMinute 0 + s.raised onePerMinute 0 :=
  ⟨_, rfl, rfl, rfl, rfl, by decide⟩

end DjangoOx
