import DjangoOx.Limits.Windows

/-! The bound of a rate limit: who may still claim on a window, and which claims on it are not
counted yet. -/
namespace DjangoOx

open Machine Machine.Members

/-- The SELECT found room in that window. -/
def Reading.Finds (L : RateLimit) (g : ℕ) : Reading → Prop
  | probing => False
  | rolling rows _ => (rows L).windowId = g ∧ (rows L).used < L.limit

/-- The limit covers the claim, which stood on that window. -/
def Recording.Stands (L : RateLimit) (g : ℕ) (rec : Recording) : Prop :=
  L.Covers rec.call ∧ rec.views L = some g

namespace RateClaimer

/-- The view lets covered calls through, on that window. -/
def Offers (L : RateLimit) (g : ℕ) (c : RateClaimer) : Prop :=
  c.seen L = some g ∧ L ∉ c.blocked

/-- The worker may yet claim on that window without another SELECT. -/
def Permitted (L : RateLimit) (g : ℕ) (c : RateClaimer) : Prop :=
  match c.phase with
  | .idle => c.stale = false ∧ c.Offers L g
  | .refreshing r => c.stale = false ∧ c.Offers L g ∨ r.Finds L g
  | .ready => c.Offers L g
  | .reloading rec | .recording rec => ¬ rec.Stands L g ∧ c.Offers L g
  | .rereading rec r => ¬ rec.Stands L g ∧ (c.Offers L g ∨ r.Finds L g)

/-- The worker's claim on that window is not counted yet. -/
def Uncounted (L : RateLimit) (g : ℕ) (c : RateClaimer) : Prop :=
  ∃ rec, c.phase.pending = some rec ∧ rec.Stands L g ∧ L ∈ rec.todo

variable {L : RateLimit} {g : ℕ} {c : RateClaimer}

theorem not_uncounted (h : c.phase.pending = none) : ¬ c.Uncounted L g := by
  rintro ⟨rec, hrec, -⟩
  simp [h] at hrec

theorem Permitted.not_uncounted (h : c.Permitted L g) : ¬ c.Uncounted L g := by
  rintro ⟨rec, hrec, hstands, -⟩
  unfold Permitted at h
  cases hp : c.phase with
  | idle | refreshing r | ready => simp [hp, RatePhase.pending] at hrec
  | reloading rec' | recording rec' | rereading rec' r =>
    simp only [hp, RatePhase.pending, Option.some.injEq] at h hrec
    exact h.1 (hrec ▸ hstands)

end RateClaimer

theorem RatePhase.reading_cases {p : RatePhase} {r : Reading} (h : p.reading = some r) :
    p = .refreshing r ∨ ∃ rec, p = .rereading rec r := by
  cases p with
  | refreshing r' => exact .inl (congrArg _ (Option.some.inj h))
  | rereading rec r' => exact .inr ⟨rec, congrArg _ (Option.some.inj h)⟩
  | _ => cases h

namespace RateState

variable {W : ℕ} {limits : List RateLimit} {L : RateLimit} {s s' : RateState W} {w : Fin W}
  {c : RateClaimer} {g : ℕ}

/-- The window was opened. -/
def Known (s : RateState W) (L : RateLimit) (g : ℕ) : Prop :=
  ∃ win, s.windows L = some win ∧ g ≤ win.windowId

def permits (s : RateState W) (L : RateLimit) (g : ℕ) : Set (Fin W) :=
  {w | (s.workers w).Permitted L g}

def pendings (s : RateState W) (L : RateLimit) (g : ℕ) : Set (Fin W) :=
  {w | (s.workers w).Uncounted L g}

/-- The claims on the window that no count is to be expected of. -/
def losses (s : RateState W) (L : RateLimit) (g : ℕ) : ℕ :=
  s.uncounted L g + s.raised L g + s.lost L g

/-- What a worker has read of a window was there. -/
structure Knows (s : RateState W) (L : RateLimit) (c : RateClaimer) : Prop where
  seen : ∀ g, c.seen L = some g → s.Known L g
  reading : ∀ rows todo, c.phase.reading = some (.rolling rows todo) →
    s.Known L (rows L).windowId
  views : ∀ rec, c.phase.pending = some rec → ∀ g, rec.views L = some g →
    s.Known L g ∧ c.seen L ≠ none

structure RateInv (L : RateLimit) (s : RateState W) : Prop where
  landed : ∀ win, s.windows L = some win → s.admitted L win.windowId ≤
    win.used + (s.pendings L win.windowId).ncard + s.losses L win.windowId
  bound : ∀ g, s.admitted L g + (s.permits L g).ncard < L.limit + W + s.losses L g
  knows : ∀ w, s.Knows L (s.workers w)
  fresh : ∀ g, s.admitted L g ≠ 0 → s.Known L g

theorem Knows.mono (h : s.Knows L c) (hk : ∀ g, s.Known L g → s'.Known L g) : s'.Knows L c :=
  ⟨fun g hg => hk g (h.seen g hg), fun rows todo hr => hk _ (h.reading rows todo hr),
    fun rec hrec g hg => ⟨hk g (h.views rec hrec g hg).1, (h.views rec hrec g hg).2⟩⟩

theorem Knows.of_permitted (h : s.Knows L c) (hp : c.Permitted L g) : s.Known L g := by
  have hoffers : c.Offers L g → s.Known L g := fun ho => h.seen g ho.1
  have hfinds : ∀ r, c.phase.reading = some r → r.Finds L g → s.Known L g := by
    intro r hr hf
    cases r with
    | probing => exact hf.elim
    | rolling rows todo => exact hf.1 ▸ h.reading rows todo hr
  unfold RateClaimer.Permitted at hp
  cases hphase : c.phase with
  | idle =>
    simp only [hphase] at hp
    exact hoffers hp.2
  | refreshing r =>
    simp only [hphase] at hp
    rcases hp with ⟨-, ho⟩ | hf
    · exact hoffers ho
    · exact hfinds r (by simp [hphase, RatePhase.reading]) hf
  | ready =>
    simp only [hphase] at hp
    exact hoffers hp
  | reloading rec | recording rec =>
    simp only [hphase] at hp
    exact hoffers hp.2
  | rereading rec r =>
    simp only [hphase] at hp
    rcases hp.2 with ho | hf
    · exact hoffers ho
    · exact hfinds r (by simp [hphase, RatePhase.reading]) hf

theorem ncard_permits_add_pendings (s : RateState W) (L : RateLimit) (g : ℕ) :
    (s.permits L g).ncard + (s.pendings L g).ncard ≤ W := by
  have h := ncard_add_ncard_le (s := s.permits L g) (t := s.pendings L g)
    fun v hv => RateClaimer.Permitted.not_uncounted hv
  simpa using h

/-- The windows move, and the workers look on. -/
theorem RateInv.rewindow (hi : s.RateInv L) (hw : s'.workers = s.workers)
    (ha : s'.admitted = s.admitted) (hl : s'.losses = s.losses)
    (hknown : ∀ g, s.Known L g → s'.Known L g)
    (hwin : ∀ win', s'.windows L = some win' →
      (∃ win, s.windows L = some win ∧ win.windowId = win'.windowId ∧ win.used ≤ win'.used) ∨
        ¬ s.Known L win'.windowId) : s'.RateInv L := by
  have hpermits : ∀ g, s'.permits L g = s.permits L g := fun g => by simp [permits, hw]
  have hpendings : ∀ g, s'.pendings L g = s.pendings L g := fun g => by simp [pendings, hw]
  refine ⟨fun win' h => ?_, fun g => ?_, fun v => ?_, fun g h => ?_⟩
  · rw [ha, hl, hpendings]
    rcases hwin win' h with ⟨win, hold, hid, hused⟩ | hnew
    · have hlanded := hi.landed win hold
      rw [hid] at hlanded
      omega
    · have hzero : s.admitted L win'.windowId = 0 := by
        by_contra hne
        exact hnew (hi.fresh _ hne)
      omega
  · rw [ha, hl, hpermits]
    exact hi.bound g
  · rw [hw]
    exact (hi.knows v).mono hknown
  · rw [ha] at h
    exact hknown g (hi.fresh g h)

/-- A step of one worker, whose claims on a window are counted, or lost, before others take their
place. -/
theorem RateInv.keep (hi : s.RateInv L) (hother : ∀ v, v ≠ w → s'.workers v = s.workers v)
    (hknown : ∀ g, s.Known L g → s'.Known L g)
    (hwin : ∀ win', s'.windows L = some win' →
      ∃ win, s.windows L = some win ∧ win.windowId = win'.windowId ∧ win.used ≤ win'.used)
    (ha : ∀ g, s'.admitted L g + s.losses L g ≤ s.admitted L g + s'.losses L g)
    (hfresh : ∀ g, s'.admitted L g ≠ 0 → s.admitted L g ≠ 0 ∨ s.Known L g)
    (hp : ∀ g, (s'.workers w).Permitted L g → (s.workers w).Permitted L g ∨
      s'.admitted L g + s.losses L g < s.admitted L g + s'.losses L g)
    (hf : ∀ g, (s.workers w).Uncounted L g → (s'.workers w).Uncounted L g ∨
      s'.admitted L g + s.losses L g < s.admitted L g + s'.losses L g ∨
        ∀ win win', s.windows L = some win → s'.windows L = some win' → win.used < win'.used)
    (hk : s'.Knows L (s'.workers w)) : s'.RateInv L := by
  have hpermits : ∀ g v, v ≠ w → v ∈ s'.permits L g → v ∈ s.permits L g := by
    intro g v hv h
    change (s'.workers v).Permitted L g at h
    rw [hother v hv] at h
    exact h
  have hpendings : ∀ g v, v ≠ w → v ∈ s.pendings L g → v ∈ s'.pendings L g := by
    intro g v hv h
    change (s'.workers v).Uncounted L g
    rw [hother v hv]
    exact h
  refine ⟨fun win' h => ?_, fun g => ?_, fun v => ?_, fun g h => ?_⟩
  · obtain ⟨win, hold, hid, hused⟩ := hwin win' h
    have hlanded := hi.landed win hold
    rw [hid] at hlanded
    have hbalance := ha win'.windowId
    by_cases hdrop : (s.workers w).Uncounted L win'.windowId ∧
        ¬ (s'.workers w).Uncounted L win'.windowId
    · have hle : (s.pendings L win'.windowId).ncard ≤ (s'.pendings L win'.windowId).ncard + 1 :=
        ncard_join (hpendings _)
      rcases hf _ hdrop.1 with hkeep | hloss | hcount
      · exact absurd hkeep hdrop.2
      · omega
      · have := hcount win win' hold h
        omega
    · have hle : (s.pendings L win'.windowId).ncard ≤ (s'.pendings L win'.windowId).ncard := by
        apply ncard_le_of_imp
        intro v hv
        by_cases hvw : v = w
        · subst hvw
          by_contra hnot
          exact hdrop ⟨hv, hnot⟩
        · exact hpendings _ v hvw hv
      omega
  · have hbound := hi.bound g
    have hbalance := ha g
    by_cases hjoin : (s'.workers w).Permitted L g ∧ ¬ (s.workers w).Permitted L g
    · have hle : (s'.permits L g).ncard ≤ (s.permits L g).ncard + 1 := ncard_join (hpermits g)
      have hloss := (hp g hjoin.1).resolve_left hjoin.2
      omega
    · have hle : (s'.permits L g).ncard ≤ (s.permits L g).ncard := by
        apply ncard_le_of_imp
        intro v hv
        by_cases hvw : v = w
        · subst hvw
          by_contra hnot
          exact hjoin ⟨hv, hnot⟩
        · exact hpermits g v hvw hv
      omega
  · by_cases hvw : v = w
    · subst hvw
      exact hk
    · rw [hother v hvw]
      exact (hi.knows v).mono hknown
  · rcases hfresh g h with hold | hold
    · exact hknown g (hi.fresh g hold)
    · exact hknown g hold

/-- A claim takes the worker's permit, and waits for its count. -/
theorem RateInv.admit (hi : s.RateInv L) (hother : ∀ v, v ≠ w → s'.workers v = s.workers v)
    (hwin : s'.windows = s.windows) (hl : s'.losses = s.losses)
    (hf : ∀ g, ¬ (s.workers w).Uncounted L g)
    (hp : ∀ g, (s'.workers w).Permitted L g → (s.workers w).Permitted L g)
    (ha : ∀ g, s'.admitted L g = s.admitted L g ∨ s'.admitted L g = s.admitted L g + 1 ∧
      (s.workers w).Permitted L g ∧ ¬ (s'.workers w).Permitted L g ∧ (s'.workers w).Uncounted L g)
    (hk : s'.Knows L (s'.workers w)) : s'.RateInv L := by
  have hpermits : ∀ g v, v ≠ w → v ∈ s'.permits L g → v ∈ s.permits L g := by
    intro g v hv h
    change (s'.workers v).Permitted L g at h
    rw [hother v hv] at h
    exact h
  have hpendings : ∀ g v, v ≠ w → v ∈ s.pendings L g → v ∈ s'.pendings L g := by
    intro g v hv h
    change (s'.workers v).Uncounted L g
    rw [hother v hv]
    exact h
  have hknown : ∀ g, s'.Known L g ↔ s.Known L g := fun g => by simp [Known, hwin]
  refine ⟨fun win h => ?_, fun g => ?_, fun v => ?_, fun g h => ?_⟩
  · rw [hwin] at h
    have hlanded := hi.landed win h
    rw [hl]
    have hle : (s.pendings L win.windowId).ncard ≤ (s'.pendings L win.windowId).ncard := by
      apply ncard_le_of_imp
      intro v hv
      by_cases hvw : v = w
      · subst hvw
        exact absurd hv (hf _)
      · exact hpendings _ v hvw hv
    rcases ha win.windowId with hsame | ⟨hone, -, -, hpending⟩
    · omega
    · have hlt : (s.pendings L win.windowId).ncard < (s'.pendings L win.windowId).ncard :=
        ncard_leave (hpendings _) hpending (hf _)
      omega
  · have hbound := hi.bound g
    rw [hl]
    have hle : (s'.permits L g).ncard ≤ (s.permits L g).ncard := by
      apply ncard_le_of_imp
      intro v hv
      by_cases hvw : v = w
      · subst hvw
        exact hp g hv
      · exact hpermits g v hvw hv
    rcases ha g with hsame | ⟨hone, hmine, hgone, -⟩
    · omega
    · have hlt : (s'.permits L g).ncard < (s.permits L g).ncard :=
        ncard_leave (hpermits g) hmine hgone
      omega
  · by_cases hvw : v = w
    · subst hvw
      exact hk
    · rw [hother v hvw]
      exact (hi.knows v).mono fun g h => (hknown g).mpr h
  · rw [hknown]
    rcases ha g with hsame | ⟨-, hmine, -, -⟩
    · rw [hsame] at h
      exact hi.fresh g h
    · exact (hi.knows w).of_permitted hmine

/-- A worker finds room in the open window: all that were admitted are counted, are some worker's to
count, or are lost. -/
theorem RateInv.find (hi : s.RateInv L) (hother : ∀ v, v ≠ w → s'.workers v = s.workers v)
    (hwin : s'.windows = s.windows) (ha : s'.admitted = s.admitted) (hl : s'.losses = s.losses)
    (hp : ∀ g, (s'.workers w).Permitted L g → (s.workers w).Permitted L g ∨
      ∃ win, s.windows L = some win ∧ win.windowId = g ∧ win.used < L.limit)
    (hf : ∀ g, (s'.workers w).Uncounted L g ↔ (s.workers w).Uncounted L g)
    (hk : s'.Knows L (s'.workers w)) : s'.RateInv L := by
  have hpendings : ∀ g, s'.pendings L g = s.pendings L g := by
    intro g
    ext v
    change (s'.workers v).Uncounted L g ↔ (s.workers v).Uncounted L g
    by_cases hvw : v = w
    · subst hvw
      exact hf g
    · rw [hother v hvw]
  have hknown : ∀ g, s'.Known L g ↔ s.Known L g := fun g => by simp [Known, hwin]
  refine ⟨fun win h => ?_, fun g => ?_, fun v => ?_, fun g h => ?_⟩
  · rw [hwin] at h
    rw [ha, hl, hpendings]
    exact hi.landed win h
  · rw [ha, hl]
    by_cases hroom : ∃ win, s.windows L = some win ∧ win.windowId = g ∧ win.used < L.limit
    · obtain ⟨win, hw, rfl, hused⟩ := hroom
      have hlanded := hi.landed win hw
      have hsum := s'.ncard_permits_add_pendings L win.windowId
      rw [hpendings] at hsum
      omega
    · have hbound := hi.bound g
      have hle : (s'.permits L g).ncard ≤ (s.permits L g).ncard := by
        apply ncard_le_of_imp
        intro v hv
        by_cases hvw : v = w
        · subst hvw
          exact (hp g hv).resolve_right hroom
        · change (s'.workers v).Permitted L g at hv
          rw [hother v hvw] at hv
          exact hv
      omega
  · by_cases hvw : v = w
    · subst hvw
      exact hk
    · rw [hother v hvw]
      exact (hi.knows v).mono fun g h => (hknown g).mpr h
  · rw [ha] at h
    exact (hknown g).mpr (hi.fresh g h)

/-- A window is rolled: nobody stands on the next one. -/
theorem RateInv.tryRoll (hi : s.RateInv L) {l : RateLimit} {windowId : ℕ}
    (h : s.tryRoll w l windowId = some s') : s'.RateInv L := by
  unfold RateState.tryRoll at h
  split at h
  · next win hw =>
    obtain ⟨⟨rfl, -⟩, h⟩ := Option.ite_none_right_eq_some.mp h
    obtain rfl := Option.some.inj h
    refine hi.rewindow rfl rfl rfl (fun g hg => ?_) fun win' hw' => ?_
    · obtain ⟨old, hold, hle⟩ := hg
      by_cases hl : L = l
      · subst hl
        obtain rfl : win = old := Option.some.inj (hw.symm.trans hold)
        exact ⟨_, Function.update_self .., Nat.le_succ_of_le hle⟩
      · exact ⟨old, (Function.update_of_ne hl _ _).trans hold, hle⟩
    · dsimp only at hw'
      by_cases hl : L = l
      · subst hl
        rw [Function.update_self] at hw'
        obtain rfl := Option.some.inj hw'
        right
        rintro ⟨old, hold, hle⟩
        obtain rfl : win = old := Option.some.inj (hw.symm.trans hold)
        simp only at hle
        omega
      · rw [Function.update_of_ne hl] at hw'
        exact .inl ⟨win', hw', rfl, le_rfl⟩
  · cases h

/-- The UPDATE of a count finds the window that it names, and counts there. -/
theorem tryCount_eq_some {l : RateLimit} {windowId : ℕ} (h : s.tryCount l windowId = some s') :
    ∃ win, s.windows l = some win ∧ win.windowId = windowId ∧
      s' = { s with
        windows := Function.update s.windows l (some { win with used := win.used + 1 }) } := by
  unfold tryCount at h
  split at h
  · next win hw =>
    obtain ⟨hid, h⟩ := Option.ite_none_right_eq_some.mp h
    exact ⟨win, hw, hid, (Option.some.inj h).symm⟩
  · cases h

theorem known_tryCount {l : RateLimit} {windowId : ℕ} (h : s.tryCount l windowId = some s')
    (hg : s.Known L g) : s'.Known L g := by
  obtain ⟨win, hw, -, rfl⟩ := tryCount_eq_some h
  obtain ⟨old, hold, hle⟩ := hg
  by_cases hl : L = l
  · subst hl
    obtain rfl : win = old := Option.some.inj (hw.symm.trans hold)
    exact ⟨_, Function.update_self .., hle⟩
  · exact ⟨old, (Function.update_of_ne hl _ _).trans hold, hle⟩

theorem windows_tryCount {l : RateLimit} {windowId : ℕ} (h : s.tryCount l windowId = some s')
    {win' : RateWindow} (hw' : s'.windows L = some win') :
    ∃ win, s.windows L = some win ∧ win.windowId = win'.windowId ∧ win.used ≤ win'.used ∧
      (L = l → win.used < win'.used) := by
  obtain ⟨win, hw, -, rfl⟩ := tryCount_eq_some h
  dsimp only at hw'
  by_cases hl : L = l
  · subst hl
    rw [Function.update_self] at hw'
    obtain rfl := Option.some.inj hw'
    exact ⟨win, hw, rfl, Nat.le_succ _, fun _ => Nat.lt_succ_self _⟩
  · rw [Function.update_of_ne hl] at hw'
    exact ⟨win', hw', rfl, le_rfl, fun h => absurd h hl⟩

theorem RateInv.tryCount (hi : s.RateInv L) {l : RateLimit} {windowId : ℕ}
    (h : s.tryCount l windowId = some s') : s'.RateInv L := by
  have hstate : s'.workers = s.workers ∧ s'.admitted = s.admitted ∧ s'.losses = s.losses := by
    obtain ⟨win, -, -, rfl⟩ := tryCount_eq_some h
    exact ⟨rfl, rfl, rfl⟩
  refine hi.rewindow hstate.1 hstate.2.1 hstate.2.2 (fun g hg => known_tryCount h hg)
    fun win' hw' => .inl ?_
  obtain ⟨win, hw, hid, hle, -⟩ := windows_tryCount h hw'
  exact ⟨win, hw, hid, hle⟩

theorem workers_setWorker (v : Fin W) :
    (s.setWorker w c).workers v = if v = w then c else s.workers v := by
  simp [setWorker, Function.update_apply]

/-- A step of one worker that reads nothing new and drops no claim. -/
theorem RateInv.setWorker (hi : s.RateInv L)
    (hp : ∀ g, c.Permitted L g → (s.workers w).Permitted L g)
    (hf : ∀ g, (s.workers w).Uncounted L g → c.Uncounted L g) (hk : s.Knows L c) :
    (s.setWorker w c).RateInv L := by
  have hself : (s.setWorker w c).workers w = c := by rw [workers_setWorker, if_pos rfl]
  refine hi.keep (w := w) (fun v hv => by rw [workers_setWorker, if_neg hv]) (fun g h => h)
    (fun win' h => ⟨win', h, rfl, le_rfl⟩) (fun g => le_rfl) (fun g h => .inl h) ?_ ?_ ?_
  · rw [hself]
    exact fun g h => .inl (hp g h)
  · rw [hself]
    exact fun g h => .inl (hf g h)
  · rw [hself]
    exact hk.mono fun _ h => h

theorem losses_raise (rec : Recording) (g : ℕ) : (s.raise rec).losses L g =
    s.losses L g + if L.Covers rec.call ∧ rec.views L = some g then 1 else 0 := by
  unfold losses raise Tally.add
  dsimp only
  omega

/-- The claim under way is given up, as one that raised or one that was lost; the worker may go on
with the window that it stood on. -/
theorem RateInv.lose (hi : s.RateInv L) {rec : Recording}
    (hrec : (s.workers w).phase.pending = some rec) (hw : s'.workers = s.workers)
    (hwin : s'.windows = s.windows) (ha : s'.admitted = s.admitted)
    (hl : ∀ g, s'.losses L g =
      s.losses L g + if L.Covers rec.call ∧ rec.views L = some g then 1 else 0)
    (hp : ∀ g, c.Permitted L g → (s.workers w).Permitted L g ∨ rec.Stands L g)
    (hk : s.Knows L c) : (s'.setWorker w c).RateInv L := by
  have hself : (s'.setWorker w c).workers w = c := by rw [workers_setWorker, if_pos rfl]
  have hloss : ∀ g, (s'.setWorker w c).losses L g = s'.losses L g := fun _ => rfl
  have hadm : ∀ g, (s'.setWorker w c).admitted L g = s.admitted L g := fun g => by
    rw [← ha]
    rfl
  have hknown : ∀ g, s.Known L g → (s'.setWorker w c).Known L g := by
    rintro g ⟨win, h, hle⟩
    exact ⟨win, hwin ▸ h, hle⟩
  have hstands : ∀ g, rec.Stands L g → s.losses L g < s'.losses L g := by
    intro g h
    rw [hl, if_pos ⟨h.1, h.2⟩]
    omega
  refine hi.keep (w := w) (fun v hv => ?_) hknown (fun win' h => ⟨win', ?_, rfl, le_rfl⟩)
    (fun g => ?_) (fun g h => .inl ?_) (fun g h => ?_) (fun g h => ?_) ?_
  · rw [workers_setWorker, if_neg hv, hw]
  · rw [← hwin]
    exact h
  · rw [hadm, hloss, hl]
    omega
  · rwa [hadm] at h
  · rw [hself] at h
    rw [hadm, hloss]
    rcases hp g h with hold | hst
    · exact .inl hold
    · have := hstands g hst
      exact .inr (by omega)
  · obtain ⟨rec', hrec', hst, -⟩ := h
    obtain rfl : rec = rec' := Option.some.inj (hrec.symm.trans hrec')
    have := hstands g hst
    rw [hadm, hloss]
    exact .inr (.inl (by omega))
  · rw [hself]
    exact hk.mono hknown

theorem RateInv.raise (hi : s.RateInv L) {rec : Recording}
    (hrec : (s.workers w).phase.pending = some rec)
    (hp : ∀ g, c.Permitted L g → (s.workers w).Permitted L g ∨ rec.Stands L g)
    (hk : s.Knows L c) : ((s.raise rec).setWorker w c).RateInv L :=
  hi.lose hrec rfl rfl rfl (losses_raise rec) hp hk

/-- The first limit of a recording runs uncounted. -/
theorem RateInv.skipCount (hi : s.RateInv L) {rec : Recording}
    (hphase : (s.workers w).phase = .recording rec ∨
      ∃ r, (s.workers w).phase = .rereading rec r) : (s.skipCount w rec).RateInv L := by
  have hpending : (s.workers w).phase.pending = some rec := by
    rcases hphase with h | ⟨r, h⟩ <;> rw [h] <;> rfl
  unfold RateState.skipCount
  cases htodo : rec.todo with
  | nil => exact hi
  | cons l todo =>
    dsimp only
    have hk := hi.knows w
    refine hi.keep (w := w) (fun v hv => ?_) (fun g h => h) (fun win' h => ⟨win', h, rfl, le_rfl⟩)
      (fun g => ?_) (fun g h => .inl h) (fun g h => .inl ?_) (fun g h => ?_) ?_
    · rw [workers_setWorker, if_neg hv]
    · change s.admitted L g + s.losses L g ≤ s.admitted L g + (s.uncounted.addOne l rec.views L g +
        s.raised L g + s.lost L g)
      unfold losses Tally.addOne
      omega
    · rw [workers_setWorker, if_pos rfl] at h
      obtain ⟨hst, hoffers⟩ := h
      unfold RateClaimer.Permitted
      rcases hphase with hphase | ⟨r, hphase⟩ <;> rw [hphase]
      · exact ⟨hst, hoffers⟩
      · exact ⟨hst, .inl hoffers⟩
    · obtain ⟨rec', hrec', hst, hmem⟩ := h
      obtain rfl : rec = rec' := Option.some.inj (hpending.symm.trans hrec')
      rw [htodo] at hmem
      rcases List.mem_cons.mp hmem with rfl | hmem
      · right
        left
        change s.admitted L g + s.losses L g < s.admitted L g +
          (s.uncounted.addOne L rec.views L g + s.raised L g + s.lost L g)
        unfold losses Tally.addOne
        rw [if_pos ⟨rfl, hst.2⟩]
        omega
      · rw [workers_setWorker, if_pos rfl]
        exact .inl ⟨_, rfl, hst, hmem⟩
    · rw [workers_setWorker, if_pos rfl]
      refine ⟨hk.seen, fun rows todo h => (nomatch h), fun rec' h g hg => ?_⟩
      obtain rfl := Option.some.inj h
      exact hk.views rec hpending g hg

/-- The rows a SELECT returns are the windows. -/
theorem readRow_of_some {win : RateWindow} {l : RateLimit} (h : s.windows l = some win) :
    (s.readRow l).windowId = win.windowId ∧ (s.readRow l).used = win.used := by
  unfold readRow
  rw [h]
  exact ⟨rfl, rfl⟩

/-- The worker reads on, in the same read. -/
theorem RateInv.read (hi : s.RateInv L) {r r' : Reading}
    (hr : (s.workers w).phase.reading = some r)
    (hp : ∀ g, r'.Finds L g → r.Finds L g ∨
      ∃ win, s.windows L = some win ∧ win.windowId = g ∧ win.used < L.limit)
    (hk : ∀ rows todo, r' = .rolling rows todo → s.Known L (rows L).windowId) :
    (s.setWorker w { s.workers w with
      phase := (s.workers w).phase.setReading r' }).RateInv L := by
  have hself : ∀ c, (s.setWorker w c).workers w = c := fun c => by rw [workers_setWorker, if_pos rfl]
  have hknows := hi.knows w
  refine hi.find (w := w) (fun v hv => by rw [workers_setWorker, if_neg hv]) rfl rfl rfl
    (fun g h => ?_) (fun g => ?_) ?_
  · rw [hself] at h
    unfold RateClaimer.Permitted at h ⊢
    rcases RatePhase.reading_cases hr with hphase | ⟨rec, hphase⟩ <;>
      simp only [hphase, RatePhase.setReading] at h ⊢
    · rcases h with h | h
      · exact .inl (.inl h)
      · exact (hp g h).imp_left .inr
    · obtain ⟨hst, h | h⟩ := h
      · exact .inl ⟨hst, .inl h⟩
      · exact (hp g h).imp_left fun hfind => ⟨hst, .inr hfind⟩
  · rw [hself]
    unfold RateClaimer.Uncounted
    rcases RatePhase.reading_cases hr with hphase | ⟨rec, hphase⟩ <;> rw [hphase] <;> exact Iff.rfl
  · rw [hself]
    refine ⟨hknows.seen, fun rows todo h => hk rows todo ?_, fun rec h g hg => ?_⟩
    · rcases RatePhase.reading_cases hr with hphase | ⟨rec, hphase⟩ <;>
        simp only [hphase, RatePhase.setReading, RatePhase.reading] at h <;>
        exact Option.some.inj h
    · refine hknows.views rec ?_ g hg
      rcases RatePhase.reading_cases hr with hphase | ⟨rec, hphase⟩ <;> rw [hphase] at h ⊢ <;>
        exact h

/-- The view is published: it offers what the read has found. -/
theorem RateInv.publish (hi : s.RateInv L) (hL : L ∈ limits) {rows : RateLimit → ReadRow}
    (hphase : (s.workers w).phase = .refreshing (.rolling rows []) ∧ c.phase = .ready ∨
      ∃ rec, (s.workers w).phase = .rereading rec (.rolling rows []) ∧ c.phase = .recording rec)
    (hseen : c.seen = fun l => if l ∈ limits then some (rows l).windowId else none)
    (hblocked : c.blocked = limits.filter fun l =>
      l.limit ≤ (rows l).used ∨ l ∈ (s.workers w).closed) : (s.setWorker w c).RateInv L := by
  have hoffers : ∀ g, c.Offers L g → (Reading.rolling rows []).Finds L g := by
    rintro g ⟨hsee, hopen⟩
    rw [hseen] at hsee
    simp only [if_pos hL] at hsee
    refine ⟨Option.some.inj hsee, ?_⟩
    by_contra hfull
    apply hopen
    rw [hblocked, List.mem_filter]
    exact ⟨hL, by simpa using .inl (not_lt.mp hfull)⟩
  have hknown : s.Known L (rows L).windowId := by
    refine (hi.knows w).reading rows [] ?_
    rcases hphase with ⟨h, -⟩ | ⟨rec, h, -⟩ <;> rw [h] <;> rfl
  refine hi.setWorker (fun g h => ?_) (fun g h => ?_) ⟨fun g h => ?_, fun rows todo h => ?_,
    fun rec h g hg => ?_⟩
  · unfold RateClaimer.Permitted at h ⊢
    rcases hphase with ⟨hold, hnew⟩ | ⟨rec, hold, hnew⟩ <;> rw [hnew] at h <;> rw [hold]
    · exact .inr (hoffers g h)
    · exact ⟨h.1, .inr (hoffers g h.2)⟩
  · obtain ⟨rec', hrec, h⟩ := h
    rcases hphase with ⟨hold, hnew⟩ | ⟨rec, hold, hnew⟩ <;> rw [hold] at hrec
    · cases hrec
    · exact ⟨rec', by rw [hnew]; exact hrec, h⟩
  · rw [hseen] at h
    simp only [if_pos hL] at h
    exact Option.some.inj h ▸ hknown
  · rcases hphase with ⟨-, hnew⟩ | ⟨rec, -, hnew⟩ <;> rw [hnew] at h <;> cases h
  · refine ⟨((hi.knows w).views rec ?_ g hg).1, by rw [hseen]; simp [hL]⟩
    rcases hphase with ⟨hold, hnew⟩ | ⟨rec', hold, hnew⟩ <;> rw [hnew] at h <;> rw [hold]
    · cases h
    · exact h

/-- A worker claims on its view, and is to count it. -/
theorem RateInv.claim (hi : s.RateInv L) (hL : L ∈ limits) {call : LimitedCall} {p : RatePhase}
    (hready : (s.workers w).phase = .ready) (hclaim : s.Claimable w call)
    (hp : p = .recording (s.recordingOf limits w call) ∨
      p = .reloading (s.recordingOf limits w call)) :
    ((s.admitClaim w call).setWorker w { s.workers w with phase := p }).RateInv L := by
  have hself : ∀ s : RateState W, ∀ c, (s.setWorker w c).workers w = c := fun s c => by
    rw [workers_setWorker, if_pos rfl]
  have hpending : p.pending = some (s.recordingOf limits w call) := by
    rcases hp with rfl | rfl <;> rfl
  have hpermitted : ∀ g, RateClaimer.Permitted L g { s.workers w with phase := p } ↔
      ¬ (s.recordingOf limits w call).Stands L g ∧ (s.workers w).Offers L g := by
    intro g
    rcases hp with rfl | rfl <;> exact Iff.rfl
  have hold : ∀ g, (s.workers w).Permitted L g ↔ (s.workers w).Offers L g := by
    intro g
    unfold RateClaimer.Permitted
    rw [hready]
  have hknows := hi.knows w
  refine hi.admit (w := w) (fun v hv => ?_) rfl rfl
    (fun g => RateClaimer.not_uncounted (by rw [hready]; rfl)) (fun g h => ?_) (fun g => ?_) ?_
  · rw [workers_setWorker, if_neg hv]
    rfl
  · rw [hself, hpermitted] at h
    exact (hold g).mpr h.2
  · by_cases hstands : L.Covers call ∧ (s.workers w).seen L = some g
    · right
      obtain ⟨hcov, hview⟩ := hstands
      refine ⟨?_, (hold g).mpr ⟨hview, fun hb => hclaim L hb hcov⟩, ?_, ?_⟩
      · change s.admitted.add call (s.workers w).seen L g = _
        unfold Tally.add
        rw [if_pos ⟨hcov, hview⟩]
      · rw [hself, hpermitted]
        exact fun h => h.1 ⟨hcov, hview⟩
      · rw [hself]
        exact ⟨_, hpending, ⟨hcov, hview⟩, List.mem_filter.mpr ⟨hL, by simpa using hcov⟩⟩
    · left
      change s.admitted.add call (s.workers w).seen L g = _
      unfold Tally.add
      rw [if_neg hstands]
      rfl
  · rw [hself]
    refine ⟨hknows.seen, fun rows todo h => ?_, fun rec h g hg => ?_⟩
    · rcases hp with rfl | rfl <;> cases h
    · obtain rfl := Option.some.inj (hpending.symm.trans h)
      exact ⟨hknows.seen g hg, by rw [show (s.workers w).seen L = some g from hg]; simp⟩

/-- A claim that commits and raises is one that was admitted and one that was lost. -/
theorem RateInv.claimRaises (hi : s.RateInv L) {call : LimitedCall}
    (hready : (s.workers w).phase = .ready) :
    (((s.admitClaim w call).raise (s.recordingOf limits w call)).setWorker w
      { s.workers w with phase := .idle }).RateInv L := by
  have hadmitted : ∀ g, s.admitted.add call (s.workers w).seen L g =
      s.admitted L g + if L.Covers call ∧ (s.workers w).seen L = some g then 1 else 0 :=
    fun _ => rfl
  have hlosses : ∀ g, ((s.admitClaim w call).raise (s.recordingOf limits w call)).losses L g =
      s.losses L g + if L.Covers call ∧ (s.workers w).seen L = some g then 1 else 0 :=
    fun g => losses_raise (s := s.admitClaim w call) _ g
  have hknows := hi.knows w
  refine hi.keep (w := w) (fun v hv => ?_) (fun g h => h) (fun win' h => ⟨win', h, rfl, le_rfl⟩)
    (fun g => ?_) (fun g h => ?_) (fun g h => .inl ?_) (fun g h => ?_) ?_
  · rw [workers_setWorker, if_neg hv]
    rfl
  · change s.admitted.add call (s.workers w).seen L g + s.losses L g ≤ s.admitted L g +
      ((s.admitClaim w call).raise (s.recordingOf limits w call)).losses L g
    rw [hlosses, hadmitted]
    omega
  · change s.admitted.add call (s.workers w).seen L g ≠ 0 at h
    rw [hadmitted] at h
    by_cases hview : L.Covers call ∧ (s.workers w).seen L = some g
    · exact .inr (hknows.seen g hview.2)
    · rw [if_neg hview] at h
      exact .inl h
  · rw [workers_setWorker, if_pos rfl] at h
    unfold RateClaimer.Permitted
    rw [hready]
    exact h.2
  · exact absurd h (RateClaimer.not_uncounted (by rw [hready]; rfl))
  · rw [workers_setWorker, if_pos rfl]
    exact ⟨hknows.seen, fun rows todo h => (nomatch h), fun rec h => (nomatch h)⟩

/-- A count lands. -/
theorem RateInv.count (hi : s.RateInv L) {rec : Recording} {l : RateLimit} {todo : List RateLimit}
    {windowId : ℕ} (hphase : (s.workers w).phase = .recording rec) (htodo : rec.todo = l :: todo)
    (h : s.tryCount l windowId = some s') :
    (s'.setWorker w { (s.workers w).counts l with
      phase := .recording { rec with todo := todo, tries := maxRateAttempts } }).RateInv L := by
  have hstate : s'.workers = s.workers ∧ s'.admitted = s.admitted ∧ s'.losses = s.losses := by
    obtain ⟨win, -, -, rfl⟩ := tryCount_eq_some h
    exact ⟨rfl, rfl, rfl⟩
  have hknows := hi.knows w
  have hpending : (s.workers w).phase.pending = some rec := by
    rw [hphase]
    rfl
  have hknown : ∀ g, s.Known L g → s'.Known L g := fun g hg => known_tryCount h hg
  refine hi.keep (w := w) (fun v hv => ?_) hknown (fun win' hw' => ?_)
    (fun g => ?_) (fun g hg => .inl ?_) (fun g hg => .inl ?_) (fun g hg => ?_) ?_
  · rw [workers_setWorker, if_neg hv, hstate.1]
  · obtain ⟨win, hw, hid, hle, -⟩ := windows_tryCount h hw'
    exact ⟨win, hw, hid, hle⟩
  · change s'.admitted L g + s.losses L g ≤ s.admitted L g + s'.losses L g
    rw [hstate.2.1, hstate.2.2]
  · change s'.admitted L g ≠ 0 at hg
    rwa [hstate.2.1] at hg
  · rw [workers_setWorker, if_pos rfl] at hg
    unfold RateClaimer.Permitted
    rw [hphase]
    exact hg
  · obtain ⟨rec', hrec', hst, hmem⟩ := hg
    obtain rfl : rec = rec' := Option.some.inj (hpending.symm.trans hrec')
    rw [htodo] at hmem
    rcases List.mem_cons.mp hmem with rfl | hmem
    · refine .inr (.inr fun win win' hw hw' => ?_)
      obtain ⟨win₀, hw₀, -, -, hlt⟩ := windows_tryCount h hw'
      obtain rfl : win = win₀ := Option.some.inj (hw.symm.trans hw₀)
      exact hlt rfl
    · rw [workers_setWorker, if_pos rfl]
      exact .inl ⟨_, rfl, hst, hmem⟩
  · rw [workers_setWorker, if_pos rfl]
    refine Knows.mono (s := s) ?_ hknown
    refine ⟨hknows.seen, fun rows todo h => (nomatch h), fun rec' h g hg => ?_⟩
    obtain rfl := Option.some.inj h
    exact hknows.views rec hpending g hg

end RateState

end DjangoOx
