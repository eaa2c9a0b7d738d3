import DjangoOx.Unique.Nested

/-! When the key of a transaction stays unique: the first enqueue that finds the key free and is kept
must not be entered again by its receiver. -/
namespace DjangoOx

namespace KeyView

variable {s v w : KeyView} {t : ℕ} {st : Status}

/-- The ids of the view are given out, each to one row, and the key was free when it was written. -/
structure Sound (s : KeyView) : Prop where
  below : ∀ r ∈ s.inserted, r.1 < s.next
  nodup : (s.inserted.map Prod.fst).Nodup
  gone : ∀ t ∈ s.rolledBack, t < s.next
  unwritten : s.written = none → s.inserted = []
  free : s.written ≠ none → ¬ s.committed.Held

/-- What may have happened to the view: rows of new tasks came, new tasks were rolled back, and others
committed while the transaction had not written the key. -/
structure Extends (s v : KeyView) : Prop where
  kept : ∀ r ∈ s.inserted, r ∈ v.inserted
  fresh : ∀ r ∈ v.inserted, r ∈ s.inserted ∨ s.next ≤ r.1
  next : s.next ≤ v.next
  old : ∀ t < s.next, t ∈ v.rolledBack → t ∈ s.rolledBack
  gone : ∀ t ∈ s.rolledBack, t ∈ v.rolledBack
  frozen : s.written ≠ none → v.committed = s.committed ∧ v.written ≠ none

theorem Extends.refl (s : KeyView) : s.Extends s :=
  ⟨fun _ h => h, fun _ h => .inl h, le_rfl, fun _ _ h => h, fun _ h => h, fun h => ⟨rfl, h⟩⟩

theorem Extends.trans (h : s.Extends v) (h' : v.Extends w) : s.Extends w where
  kept r hr := h'.kept r (h.kept r hr)
  fresh r hr := by
    rcases h'.fresh r hr with hr | hr
    · exact h.fresh r hr
    · right
      have := h.next
      omega
  next := h.next.trans h'.next
  old t ht hw := by
    have := h.next
    exact h.old t ht (h'.old t (by omega) hw)
  gone t ht := h'.gone t (h.gone t ht)
  frozen hs := by
    obtain ⟨hcommitted, hv⟩ := h.frozen hs
    obtain ⟨hcommitted', hw⟩ := h'.frozen hv
    exact ⟨hcommitted'.trans hcommitted, hw⟩

/-- A write of the lock row alone. -/
theorem Extends.lock (s : KeyView) (l : Option (Option ℕ)) :
    s.Extends { s with written := some l } :=
  ⟨fun _ h => h, fun _ h => .inl h, le_rfl, fun _ _ h => h, fun _ h => h,
    fun _ => ⟨rfl, Option.some_ne_none l⟩⟩

theorem Sound.lock (h : s.Sound) (hfree : ¬ s.committed.Held) (l : Option (Option ℕ)) :
    ({ s with written := some l }).Sound :=
  ⟨h.below, h.nodup, h.gone, fun hl => absurd hl (Option.some_ne_none l), fun _ => hfree⟩

/-- The task row of an enqueue. -/
def insertRow (s : KeyView) : KeyView :=
  { s with
    written := some (some none)
    inserted := s.inserted ++ [(s.next, .ready)]
    next := s.next + 1 }

theorem Extends.insertRow (s : KeyView) : s.Extends s.insertRow where
  kept r hr := List.mem_append_left _ hr
  fresh r hr := by
    rcases List.mem_append.mp hr with hr | hr
    · exact .inl hr
    · obtain rfl := List.mem_singleton.mp hr
      exact .inr le_rfl
  next := Nat.le_succ _
  old t _ ht := ht
  gone t ht := ht
  frozen _ := ⟨rfl, Option.some_ne_none _⟩

theorem Sound.insertRow (h : s.Sound) (hfree : ¬ s.committed.Held) : s.insertRow.Sound where
  below r hr := by
    change r.1 < s.next + 1
    rcases List.mem_append.mp hr with hr | hr
    · have := h.below r hr
      omega
    · obtain rfl := List.mem_singleton.mp hr
      exact Nat.lt_succ_self _
  nodup := by
    change ((s.inserted ++ [(s.next, Status.ready)]).map Prod.fst).Nodup
    rw [List.map_append, List.nodup_append]
    refine ⟨h.nodup, by simp, ?_⟩
    intro a ha b hb hab
    obtain ⟨r, hr, rfl⟩ := List.mem_map.mp ha
    have hlt := h.below r hr
    have hb' : b = s.next := by simpa using hb
    omega
  gone t ht := by
    change t < s.next + 1
    have := h.gone t ht
    omega
  unwritten hl := absurd hl (Option.some_ne_none _)
  free _ := hfree

theorem learn_of_written (h : s.written ≠ none) (k : CommittedKey) : s.learn k = s := if_neg h

theorem learn_of_unwritten (h : s.written = none) (k : CommittedKey) :
    s.learn k = { s with committed := k, next := max s.next k.next } := if_pos h

theorem Extends.learn (s : KeyView) (k : CommittedKey) : s.Extends (s.learn k) := by
  by_cases h : s.written = none
  · rw [learn_of_unwritten h]
    exact ⟨fun _ h => h, fun _ h => .inl h, le_max_left _ _, fun _ _ h => h, fun _ h => h,
      fun hne => absurd h hne⟩
  · rw [learn_of_written h]
    exact .refl s

theorem Sound.learn (h : s.Sound) (k : CommittedKey) : (s.learn k).Sound := by
  by_cases hw : s.written = none
  · rw [learn_of_unwritten hw]
    exact ⟨fun r hr => (h.below r hr).trans_le (le_max_left _ _), h.nodup,
      fun t ht => (h.gone t ht).trans_le (le_max_left _ _), h.unwritten, fun hne => absurd hw hne⟩
  · rw [learn_of_written hw]
    exact h

theorem mem_rolledBack_undo : t ∈ (s.undo v).rolledBack ↔
    t ∈ v.rolledBack ∨ (∃ r ∈ v.inserted, r.1 = t) ∧ ¬ ∃ r ∈ s.inserted, r.1 = t := by
  simp [undo]

/-- A rollback takes back rows of new tasks only. -/
theorem Extends.undo (h : s.Extends v) : s.Extends (s.undo v) where
  kept r hr := hr
  fresh r hr := .inl hr
  next := h.next
  old t ht hgone := by
    rcases mem_rolledBack_undo.mp hgone with hgone | ⟨⟨r, hr, rfl⟩, hnot⟩
    · exact h.old t ht hgone
    · rcases h.fresh r hr with hr | hr
      · exact absurd ⟨r, hr, rfl⟩ hnot
      · omega
  gone t ht := mem_rolledBack_undo.mpr (.inl (h.gone t ht))
  frozen hs := ⟨(h.frozen hs).1, hs⟩

theorem Sound.undo (hs : s.Sound) (hv : v.Sound) (h : s.Extends v) : (s.undo v).Sound where
  below r hr := (hs.below r hr).trans_le h.next
  nodup := hs.nodup
  gone t ht := by
    rcases mem_rolledBack_undo.mp ht with ht | ⟨⟨r, hr, rfl⟩, -⟩
    · exact hv.gone t ht
    · exact hv.below r hr
  unwritten := hs.unwritten
  free hw := by
    have hcommitted : v.committed = s.committed := (h.frozen hw).1
    exact hcommitted ▸ hs.free hw

/-- A row that is there is kept or was rolled back. -/
def Accounted (v w : KeyView) : Prop := ∀ r ∈ v.inserted, r ∈ w.inserted ∨ r.1 ∈ w.rolledBack

theorem Accounted.extends (h : v.Accounted s) (h' : s.Extends w) : v.Accounted w := by
  intro r hr
  rcases h r hr with hr | hr
  · exact .inl (h'.kept r hr)
  · exact .inr (h'.gone _ hr)

theorem Accounted.undo (hs : s.Sound) (hsv : s.Extends v) (h : w.Accounted v) :
    w.Accounted (s.undo v) := by
  intro r hr
  rcases h r hr with hv | hv
  · rcases hsv.fresh r hv with hold | hnew
    · exact .inl hold
    · right
      refine mem_rolledBack_undo.mpr (.inr ⟨⟨r, hv, rfl⟩, ?_⟩)
      rintro ⟨r', hr', heq⟩
      have := hs.below r' hr'
      omega
  · exact .inr (mem_rolledBack_undo.mpr (.inl hv))

end KeyView

namespace KeyRun

open KeyView

/-- A run that starts in `s`. -/
structure From (s : KeyView) (run : KeyRun) : Prop where
  sound : run.final.Sound
  grows : s.Extends run.final
  through : ∀ v ∈ run.trace, s.Extends v ∧ v.Sound ∧ v.Accounted run.final

/-- A call that does nothing unsound. -/
def Careful (f : KeyView → KeyRun) : Prop := ∀ s, s.Sound → (f s).From s

variable {s v : KeyView} {f : KeyView → KeyRun}

/-- One run after another. -/
theorem From.trans {first next : KeyRun} (h : first.From s) (h' : next.From first.final) :
    (⟨next.final, first.trace ++ next.trace⟩ : KeyRun).From s where
  sound := h'.sound
  grows := h.grows.trans h'.grows
  through v hv := by
    rcases List.mem_append.mp hv with hv | hv
    · obtain ⟨hext, hsound, hacc⟩ := h.through v hv
      exact ⟨hext, hsound, hacc.extends h'.grows⟩
    · obtain ⟨hext, hsound, hacc⟩ := h'.through v hv
      exact ⟨h.grows.trans hext, hsound, hacc⟩

/-- A statement before a run. -/
theorem From.cons {next : KeyRun} (hs : s.Extends v) (hv : v.Sound) (h : next.From v) :
    (⟨next.final, v :: next.trace⟩ : KeyRun).From s where
  sound := h.sound
  grows := hs.trans h.grows
  through w hw := by
    rcases List.mem_cons.mp hw with rfl | hw
    · exact ⟨hs, hv, fun r hr => .inl (h.grows.kept r hr)⟩
    · obtain ⟨hext, hsound, hacc⟩ := h.through w hw
      exact ⟨hs.trans hext, hsound, hacc⟩

theorem From.nil (hs : s.Sound) : (⟨s, []⟩ : KeyRun).From s :=
  ⟨hs, .refl s, fun v hv => by cases hv⟩

/-- A write of the lock row after a run. -/
theorem From.concat {run : KeyRun} (h : run.From s) (hw : run.final.written ≠ none)
    (l : Option (Option ℕ)) : (⟨{ run.final with written := some l },
      run.trace ++ [{ run.final with written := some l }]⟩ : KeyRun).From s := by
  have hsound := h.sound.lock (h.sound.free hw) l
  have hlast := From.cons (.lock run.final l) hsound (.nil hsound)
  exact h.trans hlast

end KeyRun

namespace KeyView

open KeyRun

variable {s : KeyView} {f : KeyView → KeyRun}

/-- The lock row after the UPDATE of an enqueue whose task is `t`. -/
def namedLock (t : ℕ) (received : KeyView) : Option (Option ℕ) :=
  if received.lock = some none then some (some t) else received.lock

theorem insertPass_eq (hf : (f s.insertRow).final.written ≠ none) :
    s.insertPass f = ⟨{ (f s.insertRow).final with
        written := some (namedLock s.next (f s.insertRow).final) },
      { s with written := some (some none) } :: s.insertRow :: ((f s.insertRow).trace ++
        [{ (f s.insertRow).final with
          written := some (namedLock s.next (f s.insertRow).final) }])⟩ := by
  obtain ⟨l, hl⟩ := Option.ne_none_iff_exists'.mp hf
  have hpass : (if (f s.insertRow).final.lock = some none then
      { (f s.insertRow).final with written := some (some (some s.next)) }
        else (f s.insertRow).final) =
      { (f s.insertRow).final with
        written := some (namedLock s.next (f s.insertRow).final) } := by
    unfold namedLock
    split_ifs
    · rfl
    · have hlock : (f s.insertRow).final.lock = l := by
        unfold KeyView.lock
        rw [hl, Option.getD_some]
      rw [hlock, ← hl]
  rw [← hpass]
  rfl

theorem written_of_careful (hf : Careful f) (hs : s.Sound) (hfree : ¬ s.committed.Held) :
    (f s.insertRow).final.written ≠ none :=
  ((hf _ (hs.insertRow hfree)).grows.frozen (Option.some_ne_none _)).2

theorem insertPass_from (hf : Careful f) (hs : s.Sound) (hfree : ¬ s.committed.Held) :
    (s.insertPass f).From s := by
  have hw := written_of_careful hf hs hfree
  rw [insertPass_eq hw]
  have hrow := (hf s.insertRow (hs.insertRow hfree)).concat hw
    (namedLock s.next (f s.insertRow).final)
  have hinsert := From.cons (.insertRow { s with written := some (some none) })
    (hs.insertRow hfree) hrow
  exact From.cons (.lock s (some none)) (hs.lock hfree _) hinsert

/-- The key is free for the transaction: no row, or one whose holder is not pending. -/
def Stale (s : KeyView) : Prop := ∀ gen, s.lock = some gen → s.holder gen = none

/-- The holder of a key that is held. -/
theorem holder_of_held (hw : s.written = none) (h : s.committed.Held) :
    ∃ t, s.lock = some (some t) ∧ s.holder (some t) = some t := by
  obtain ⟨⟨t, st⟩, hk, st', hst, hp⟩ := h
  obtain rfl : st = some st' := hst
  have hk' : s.committed.holder = some (t, some st') := hk
  refine ⟨t, ?_, ?_⟩
  · simp [lock, hw, CommittedKey.lock, hk']
  · simp [holder, rows, CommittedKey.rows, hk', hp]

/-- A key that is free for the transaction is not held. -/
theorem Sound.free_of_stale (hs : s.Sound) (h : s.Stale) : ¬ s.committed.Held := by
  by_cases hw : s.written = none
  · intro hheld
    obtain ⟨t, hl, hh⟩ := holder_of_held hw hheld
    rw [h _ hl] at hh
    cases hh
  · exact hs.free hw

/-- And a key that is not held is free for a transaction that has not written it. -/
theorem stale_of_free (hs : s.Sound) (hw : s.written = none) (h : ¬ s.committed.Held) :
    s.Stale := by
  intro gen _
  unfold holder
  rw [Option.filter_eq_none_iff]
  intro t _ hany
  obtain ⟨r, hr, hp⟩ := List.any_eq_true.mp hany
  have hrow : r ∈ s.committed.rows := by
    rcases List.mem_append.mp hr with hr | hr
    · exact hr
    · rw [hs.unwritten hw] at hr
      cases hr
  unfold CommittedKey.rows at hrow
  split at hrow
  · next t' st' hk =>
    obtain rfl := List.mem_singleton.mp hrow
    exact h ⟨_, hk, st', rfl, (of_decide_eq_true hp).2⟩
  · cases hrow

theorem holder_congr {s v : KeyView} (hc : v.committed = s.committed)
    (hi : v.inserted = s.inserted) (gen : Option ℕ) : v.holder gen = s.holder gen := by
  unfold holder rows
  rw [hc, hi]

theorem Stale.congr {s v : KeyView} (hs : s.Stale) (hw : v.written = s.written)
    (hc : v.committed = s.committed) (hi : v.inserted = s.inserted) : v.Stale := by
  intro gen hg
  rw [holder_congr hc hi]
  apply hs
  unfold lock at hg ⊢
  rwa [← hw, ← hc]

theorem enqueueUnique_from (hf : Careful f) (passes : ℕ) (hs : s.Sound) :
    (s.enqueueUnique f passes).From s := by
  induction passes generalizing s with
  | zero => exact .nil hs
  | succ passes ih =>
    unfold enqueueUnique
    split
    · next hlock =>
      refine insertPass_from hf hs (hs.free_of_stale fun gen hg => ?_)
      rw [hlock] at hg
      cases hg
    · next gen hlock =>
      split
      · exact .nil hs
      · next hholder =>
        have hfree : ¬ s.committed.Held := by
          refine hs.free_of_stale fun gen' hg => ?_
          obtain rfl := Option.some.inj (hlock.symm.trans hg)
          exact hholder
        exact From.cons (.lock s none) (hs.lock hfree none) (ih (hs.lock hfree none))

/-- An enqueue of a key that is held answers with the holder. -/
theorem enqueueUnique_of_held {gen : Option ℕ} {t : ℕ} (hl : s.lock = some gen)
    (h : s.holder gen = some t) (f : KeyView → KeyRun) :
    s.enqueueUnique f maxUniqueAttempts = ⟨s, []⟩ := by
  simp only [maxUniqueAttempts, enqueueUnique, hl, h]

/-- An enqueue of a key that is free releases what is there and inserts. -/
theorem enqueueUnique_of_stale (hs : s.Stale) (f : KeyView → KeyRun) :
    (s.enqueueUnique f maxUniqueAttempts).final = (s.insertPass f).final := by
  cases hlock : s.lock with
  | none => simp only [maxUniqueAttempts, enqueueUnique, hlock]
  | some gen =>
    have hreleased : ({ s with written := some none } : KeyView).lock = none := rfl
    simp only [maxUniqueAttempts, enqueueUnique, hlock, hs gen hlock, hreleased]
    rfl

end KeyView

namespace KeyScript

open KeyView KeyRun

variable {s : KeyView} {script receiver : KeyScript} {k : CommittedKey}

theorem exec_from (script : KeyScript) : Careful script.exec := by
  induction script with
  | done => exact fun s hs => .nil hs
  | enqueue receiver rest hreceiver hrest =>
    intro s hs
    have hfirst := enqueueUnique_from hreceiver maxUniqueAttempts hs
    exact hfirst.trans (hrest _ hfirst.sound)
  | atomic body rollsBack rest hbody hrest =>
    intro s hs
    have hfirst := hbody s hs
    unfold exec
    cases rollsBack with
    | false =>
      have hleft := From.cons (.refl _) hfirst.sound (hrest _ hfirst.sound)
      exact hfirst.trans hleft
    | true =>
      have hundo := hfirst.grows.undo
      have hsound := hs.undo hfirst.sound hfirst.grows
      have hrest' := hrest _ hsound
      refine ⟨hrest'.sound, hundo.trans hrest'.grows, fun v hv => ?_⟩
      rcases List.mem_append.mp hv with hv | hv
      · obtain ⟨hext, hv', hacc⟩ := hfirst.through v hv
        exact ⟨hext, hv', (hacc.undo hs hfirst.grows).extends hrest'.grows⟩
      · exact (From.cons hundo hsound hrest').through v hv
  | elsewhere key rest hrest =>
    intro s hs
    exact From.cons (.learn s key) (hs.learn key) (hrest _ (hs.learn key))

/-- The transaction holds the key: nothing changes, whatever the script does. -/
theorem exec_of_held {gen : Option ℕ} {t : ℕ} (hw : s.written ≠ none) (hl : s.lock = some gen)
    (h : s.holder gen = some t) (script : KeyScript) : (script.exec s).final = s := by
  induction script with
  | done => rfl
  | enqueue receiver rest hreceiver hrest =>
    unfold exec
    rw [enqueueUnique_of_held hl h]
    exact hrest
  | atomic body rollsBack rest hbody hrest =>
    have hleft : (if rollsBack then s.undo (body.exec s).final else (body.exec s).final) = s := by
      rw [hbody]
      cases rollsBack with
      | false => rfl
      | true =>
        have hnew : (s.inserted.map Prod.fst).filter (· ∉ s.inserted.map Prod.fst) = [] := by
          rw [List.filter_eq_nil_iff]
          intro t ht
          simpa using ht
        change s.undo s = s
        unfold undo
        rw [hnew, List.append_nil]
    unfold exec
    simp only [hleft]
    exact hrest
  | elsewhere key rest hrest =>
    unfold exec
    simp only [learn_of_written hw]
    exact hrest

/-- The view once an enqueue of a free key has returned. -/
def entered (receiver : KeyScript) (s : KeyView) : KeyView :=
  { (receiver.exec s.insertRow).final with
    written := some (namedLock s.next (receiver.exec s.insertRow).final) }

theorem enqueue_of_stale (hs : s.Sound) (hstale : s.Stale) (receiver : KeyScript) :
    (s.enqueueUnique receiver.exec maxUniqueAttempts).final = receiver.entered s := by
  rw [enqueueUnique_of_stale hstale,
    insertPass_eq (written_of_careful (exec_from receiver) hs (hs.free_of_stale hstale))]
  rfl

/-- The rows of an enqueue are in what its receiver leaves. -/
theorem insertRow_extends_entered (hs : s.Sound) (hfree : ¬ s.committed.Held)
    (receiver : KeyScript) : s.insertRow.Extends (receiver.entered s) :=
  (exec_from receiver _ (hs.insertRow hfree)).grows.trans (.lock _ _)

/-- What a script leaves, by the first enqueue that finds the key free and is kept: without one, all
the transaction wrote as it was; with one, what comes after it adds to what it left, and changes
nothing when it left the key held. -/
inductive Leaves (s final : KeyView) : Option KeyScript × CommittedKey → Prop
  | none (k : CommittedKey) (hc : final.committed = k) (hw : final.written = s.written)
      (hi : final.inserted = s.inserted) : Leaves s final (none, k)
  | some (receiver : KeyScript) (s₀ : KeyView) (hs₀ : s₀.Sound) (hfree : ¬ s₀.committed.Held)
      (hi : s₀.inserted = s.inserted) (hnext : s.next ≤ s₀.next)
      (hext : (receiver.entered s₀).Extends final)
      (hstays : ∀ gen t, (receiver.entered s₀).lock = some gen →
        (receiver.entered s₀).holder gen = some t → final = receiver.entered s₀) :
      Leaves s final (some receiver, s₀.committed)

theorem Leaves.committed {final : KeyView} {p : Option KeyScript × CommittedKey}
    (h : Leaves s final p) : final.committed = p.2 := by
  cases h with
  | none k hc => exact hc
  | some receiver s₀ hs₀ hfree hi hnext hext =>
    have hgrows := (insertRow_extends_entered hs₀ hfree receiver).trans hext
    exact (hgrows.frozen (Option.some_ne_none _)).1

/-- The same from a view that has inserted and written as much. -/
theorem Leaves.of_eq {v final : KeyView} {p : Option KeyScript × CommittedKey}
    (h : Leaves v final p) (hw : v.written = s.written) (hi : v.inserted = s.inserted)
    (hnext : s.next ≤ v.next) : Leaves s final p := by
  cases h with
  | none k hc hw' hi' => exact .none k hc (hw'.trans hw) (hi'.trans hi)
  | some receiver s₀ hs₀ hfree hi' hnext' hext hstays =>
    exact .some receiver s₀ hs₀ hfree (hi'.trans hi) (hnext.trans hnext') hext hstays

theorem exec_leaves (script : KeyScript) : ∀ s : KeyView, s.Sound → (s.written ≠ none → s.Stale) →
    Leaves s (script.exec s).final (script.first s.written.isSome s.committed) := by
  induction script with
  | done => exact fun s _ _ => .none _ rfl rfl rfl
  | enqueue receiver rest _ hrest =>
    intro s hs hstale
    unfold exec first
    by_cases hheld : s.committed.Held
    · have hw : s.written = none := by
        by_contra hw
        exact hs.free hw hheld
      obtain ⟨t, hl, hh⟩ := holder_of_held hw hheld
      rw [if_pos hheld, enqueueUnique_of_held hl hh]
      exact hrest s hs hstale
    · have hfree : s.Stale := by
        by_cases hw : s.written = none
        · exact stale_of_free hs hw hheld
        · exact hstale hw
      have hsound := (enqueueUnique_from (exec_from receiver) maxUniqueAttempts hs).sound
      rw [enqueue_of_stale hs hfree] at hsound
      rw [if_neg hheld]
      simp only [enqueue_of_stale hs hfree]
      refine .some receiver s hs hheld rfl le_rfl (exec_from rest _ hsound).grows ?_
      exact fun gen t hl hh => exec_of_held (Option.some_ne_none _) hl hh rest
  | atomic body rollsBack rest hbody hrest =>
    intro s hs hstale
    have hfirst := exec_from body s hs
    have hleaves := hbody s hs hstale
    have hcommitted := hleaves.committed
    -- a savepoint that rolls back leaves what it learnt
    have hundone : Leaves s (rest.exec (s.undo (body.exec s).final)).final
        (rest.first s.written.isSome (body.first s.written.isSome s.committed).2) := by
      have hsound := hs.undo hfirst.sound hfirst.grows
      have hrest' := hrest _ hsound fun hw =>
        (hstale hw).congr rfl (hfirst.grows.frozen hw).1 rfl
      rw [← hcommitted]
      exact hrest'.of_eq rfl rfl hfirst.grows.next
    unfold exec first
    generalize hp : body.first s.written.isSome s.committed = p at hleaves hundone
    cases hleaves with
    | none k hc hw hi =>
      cases rollsBack with
      | true => exact hundone
      | false =>
        have hrest' := hrest _ hfirst.sound fun hne =>
          (hstale (hw ▸ hne)).congr hw (hfirst.grows.frozen (hw ▸ hne)).1 hi
        rw [hw, hc] at hrest'
        exact hrest'.of_eq hw hi hfirst.grows.next
    | some receiver s₀ hs₀ hfree hi hnext hext hstays =>
      cases rollsBack with
      | true => exact hundone
      | false =>
        refine .some receiver s₀ hs₀ hfree hi hnext
          (hext.trans (exec_from rest _ hfirst.sound).grows) fun gen t hl hh => ?_
        have heq := hstays gen t hl hh
        change (rest.exec (body.exec s).final).final = _
        rw [heq]
        exact exec_of_held (Option.some_ne_none _) hl hh rest
  | elsewhere key rest hrest =>
    intro s hs hstale
    unfold exec first
    by_cases hw : s.written = none
    · have hrest' := hrest _ (hs.learn key) fun hne => by
        rw [learn_of_unwritten hw] at hne
        exact absurd hw hne
      rw [learn_of_unwritten hw] at hrest' ⊢
      rw [hw] at hrest' ⊢
      exact hrest'.of_eq (hw.symm ▸ rfl) rfl (le_max_left _ _)
    · simp only [learn_of_written hw]
      rw [if_pos (Option.isSome_iff_ne_none.mpr hw)]
      exact hrest s hs hstale

/-- In a transaction that has written the key, which nobody holds, an enqueue that is kept is the
first one that finds it free. -/
theorem first_eq_none (hfree : ¬ k.Held) :
    ((script.first true k).1 = none ↔ script.keeps = false) ∧ (script.first true k).2 = k := by
  induction script with
  | done => exact ⟨iff_of_true rfl rfl, rfl⟩
  | enqueue receiver rest _ _ =>
    unfold first keeps
    rw [if_neg hfree]
    exact ⟨iff_of_false (Option.some_ne_none _) Bool.noConfusion, rfl⟩
  | atomic body rollsBack rest hbody hrest =>
    unfold first keeps
    obtain ⟨hnone, hk⟩ := hbody
    generalize body.first true k = p at hnone hk
    obtain ⟨_ | inner, k'⟩ := p
    · obtain rfl : k' = k := hk
      have hkeeps : body.keeps = false := hnone.mp rfl
      simpa [hkeeps] using hrest
    · obtain rfl : k' = k := hk
      have hkeeps : body.keeps = true := by
        rw [← Bool.not_eq_false]
        exact fun h => Option.some_ne_none _ (hnone.mpr h)
      cases rollsBack with
      | true => simpa [hkeeps] using hrest
      | false => simp [hkeeps]
  | elsewhere key rest hrest => exact hrest

theorem mem_inserted_insertRow (s : KeyView) : (s.next, Status.ready) ∈ s.insertRow.inserted :=
  List.mem_append_right _ (List.mem_singleton_self _)

/-- The lock row holds NULL, which reads as a task that is gone. -/
theorem insertRow_stale (s : KeyView) : s.insertRow.Stale := by
  intro gen hg
  obtain rfl := Option.some.inj hg
  rfl

/-- A receiver that keeps no enqueue leaves the lock row naming the task. -/
theorem entered_of_no_receiver (hs : s.Sound) (hfree : ¬ s.committed.Held)
    (h : receiver.keeps = false) :
    (receiver.entered s).lock = some (some s.next) ∧
      (receiver.entered s).inserted = s.inserted ++ [(s.next, .ready)] := by
  have hleaves := exec_leaves receiver _ (hs.insertRow hfree) fun _ => insertRow_stale s
  have hnone : (receiver.first true s.committed).1 = none := (first_eq_none hfree).1.mpr h
  change Leaves _ _ (receiver.first true s.committed) at hleaves
  generalize receiver.first true s.committed = p at hleaves hnone
  cases hleaves with
  | none k hc hw hi =>
    have hlock : (receiver.exec s.insertRow).final.lock = some none := by
      unfold KeyView.lock
      rw [hw]
      rfl
    exact ⟨if_pos hlock, hi⟩
  | some inner => cases hnone

/-- A receiver that keeps an enqueue leaves two READY rows. -/
theorem entered_of_receiver (hs : s.Sound) (hfree : ¬ s.committed.Held)
    (h : receiver.keeps = true) :
    ∃ t, t ≠ s.next ∧ (t, Status.ready) ∈ (receiver.entered s).inserted := by
  have hleaves := exec_leaves receiver _ (hs.insertRow hfree) fun _ => insertRow_stale s
  have hsome : (receiver.first true s.committed).1 ≠ none := by
    rw [Ne, (first_eq_none hfree).1, h]
    exact Bool.noConfusion
  change Leaves _ _ (receiver.first true s.committed) at hleaves
  generalize receiver.first true s.committed = p at hleaves hsome
  cases hleaves with
  | none k => exact absurd rfl hsome
  | some inner s₀ hs₀ hfree₀ hi hnext hext =>
    have hmem := (insertRow_extends_entered hs₀ hfree₀ inner).kept _ (mem_inserted_insertRow s₀)
    have hlt : s.next + 1 ≤ s₀.next := hnext
    exact ⟨s₀.next, by omega, hext.kept _ hmem⟩

end KeyScript

namespace CommittedKey

open KeyView KeyScript

variable {k : CommittedKey} {script : KeyScript} {t : ℕ}

theorem view_sound (k : CommittedKey) : k.view.Sound :=
  ⟨by simp [view], by simp [view], by simp [view], fun _ => rfl, fun h => absurd rfl h⟩

theorem mem_readyTasks {rows : List (ℕ × Status)} : t ∈ readyTasks rows ↔ (t, .ready) ∈ rows := by
  unfold readyTasks
  constructor
  · intro h
    obtain ⟨r, hr, rfl⟩ := List.mem_map.mp h
    obtain ⟨hr, hst⟩ := List.mem_filter.mp hr
    rwa [← of_decide_eq_true hst]
  · exact fun h => List.mem_map.mpr ⟨_, List.mem_filter.mpr ⟨h, by simp⟩, rfl⟩

theorem mem_ready {v : KeyView} :
    t ∈ v.ready ↔ (t, .ready) ∈ v.committed.rows ∨ (t, .ready) ∈ v.inserted := by
  unfold ready KeyView.rows
  rw [mem_readyTasks, List.mem_append]

theorem length_readyTasks_rows (k : CommittedKey) : (readyTasks k.rows).length ≤ 1 := by
  unfold readyTasks
  rw [List.length_map]
  refine (List.length_filter_le _ _).trans ?_
  unfold CommittedKey.rows
  split <;> simp

/-- A committed READY row is that of the holder. -/
theorem holder_of_ready (h : (t, .ready) ∈ k.rows) : k.Held ∧ k.lock = some (some t) := by
  unfold CommittedKey.rows at h
  split at h
  · next t' st hk =>
    obtain ⟨rfl, rfl⟩ := Prod.mk.inj (List.mem_singleton.mp h)
    exact ⟨⟨_, hk, _, rfl, .inl rfl⟩, by simp [CommittedKey.lock, hk]⟩
  · cases h

theorem length_le_one {l : List ℕ} (hnodup : l.Nodup) (h : ∀ a ∈ l, ∀ b ∈ l, a = b) :
    l.length ≤ 1 := by
  match l with
  | [] => exact Nat.zero_le _
  | [a] => exact le_rfl
  | a :: b :: l =>
    have hab : a = b := h a (by simp) b (by simp)
    simp [hab] at hnodup

/-- With at most one READY row inserted in the end there was at most one READY row at every point,
those that were rolled back apart. -/
theorem ready_le_one (h : ∀ t t', (t, .ready) ∈ (script.exec k.view).final.inserted →
      (t', .ready) ∈ (script.exec k.view).final.inserted → t = t') :
    ∀ v ∈ (script.exec k.view).trace,
      (v.readyBut (script.exec k.view).final.rolledBack).length ≤ 1 := by
  intro v hv
  obtain ⟨-, hsound, hacc⟩ := (exec_from script _ k.view_sound).through v hv
  unfold readyBut
  by_cases hw : v.written = none
  · rw [hsound.unwritten hw]
    simpa [readyTasks] using length_readyTasks_rows v.committed
  · have hnone : readyTasks v.committed.rows = [] := by
      rw [List.eq_nil_iff_forall_not_mem]
      exact fun t ht => hsound.free hw (holder_of_ready (mem_readyTasks.mp ht)).1
    rw [hnone, List.nil_append]
    have hkept : ∀ t ∈ (readyTasks v.inserted).filter
        (· ∉ (script.exec k.view).final.rolledBack),
        (t, .ready) ∈ (script.exec k.view).final.inserted := by
      intro t ht
      obtain ⟨ht, hnot⟩ := List.mem_filter.mp ht
      exact (hacc _ (mem_readyTasks.mp ht)).resolve_right (of_decide_eq_true hnot)
    refine length_le_one ?_ fun a ha b hb => h a b (hkept a ha) (hkept b hb)
    refine List.Nodup.sublist List.filter_sublist ?_
    exact hsound.nodup.sublist (List.filter_sublist.map _)

/-- The key of a transaction stays unique exactly when the receiver of the first enqueue that finds
it free and is kept keeps no enqueue of its own. -/
theorem staysUnique_iff (k : CommittedKey) (script : KeyScript) : k.StaysUnique script ↔
    ∀ receiver ∈ (script.first false k).1, receiver.keeps = false := by
  have hleaves : Leaves k.view (script.exec k.view).final (script.first false k) :=
    exec_leaves script _ k.view_sound fun h => absurd rfl h
  generalize script.first false k = p at hleaves
  cases hleaves with
  | none k' hc hw hi =>
    -- the transaction wrote nothing that is kept
    refine iff_of_true ⟨ready_le_one fun t t' ht => ?_, fun t ht => ?_⟩ fun _ h => nomatch h
    · rw [hi] at ht
      cases ht
    · rw [mem_ready, hi, hc] at ht
      rcases ht with ht | ht
      · unfold KeyView.lock
        rw [hw, hc]
        exact (holder_of_ready ht).2
      · cases ht
  | some receiver s₀ hs₀ hfree hi hnext hext hstays =>
    have houter := (insertRow_extends_entered hs₀ hfree receiver).kept _ (mem_inserted_insertRow s₀)
    constructor
    · rintro ⟨-, hnamed⟩ _ ⟨⟩
      by_contra hkeeps
      obtain ⟨t, hne, hmem⟩ := entered_of_receiver hs₀ hfree (by simpa using hkeeps)
      have h₁ := hnamed _ (mem_ready.mpr (.inr (hext.kept _ hmem)))
      have h₂ := hnamed _ (mem_ready.mpr (.inr (hext.kept _ houter)))
      rw [h₁] at h₂
      exact hne (Option.some.inj (Option.some.inj h₂))
    · intro h
      obtain ⟨hlock, hinserted⟩ := entered_of_no_receiver hs₀ hfree (h receiver rfl)
      rw [hi] at hinserted
      have hholder : (receiver.entered s₀).holder (some s₀.next) = some s₀.next := by
        simp [KeyView.holder, KeyView.rows, hinserted, Status.Pending]
      have hfinal := hstays _ _ hlock hholder
      have honly : ∀ t, (t, .ready) ∈ (script.exec k.view).final.inserted → t = s₀.next := by
        intro t ht
        rw [hfinal, hinserted] at ht
        exact (Prod.mk.inj (List.mem_singleton.mp ht)).1
      have hsettled := (exec_from script _ k.view_sound).sound.free (by
        rw [hfinal]
        exact Option.some_ne_none _)
      refine ⟨ready_le_one fun t t' ht ht' => (honly t ht).trans (honly t' ht').symm, ?_⟩
      intro t ht
      rcases mem_ready.mp ht with ht | ht
      · exact absurd (holder_of_ready ht).1 hsettled
      · rw [honly t ht, hfinal, hlock]

-- the holder is running when the transaction begins, and finishes before the first enqueue
example : ¬ (⟨some (0, some .running)⟩ : CommittedKey).StaysUnique
    (.elsewhere ⟨some (0, some .successful)⟩ (.enqueue (.enqueue .done .done) .done)) := by
  decide

/-- A receiver enqueues the task it is told of once more. -/
theorem receiver_enqueues_again :
    ¬ (⟨none⟩ : CommittedKey).StaysUnique (.enqueue (.enqueue .done .done) .done) := by
  decide

end CommittedKey

end DjangoOx
