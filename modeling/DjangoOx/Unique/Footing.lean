import DjangoOx.Unique.Enqueue

/-! What each transaction of a unique key can rely on, and the statements that keep it. -/
namespace DjangoOx

open Machine

/-- Not between the INSERT of the lock row and the end of its block. -/
def UniqueCall.Plain : UniqueCall → Prop
  | .locked _ _ | .tasked _ _ _ | .named _ _ _ => False
  | _ => True

/-- Relies on nothing that was read. -/
def UniqueCall.Quiet : UniqueCall → Prop
  | .idle | .inserting _ | .returned _ _ | .raised => True
  | _ => False

theorem UniqueCall.Quiet.plain {c : UniqueCall} (h : c.Quiet) : c.Plain := by
  cases c <;> trivial

theorem UniqueCall.quiet_of_progress {c : UniqueCall} (h : c.progress = none) : c.Quiet := by
  cases c <;> trivial

namespace UniqueState

variable {rowLocks : Bool} {s s' s'' : UniqueState} {x y : ℕ}

/-- The task is not pending, and does not become so before the transaction ends. -/
def DeadTask (rowLocks : Bool) (s : UniqueState) (x : ℕ) (t : TaskId) : Prop :=
  ∀ r ∈ s.tasks.committed t, ¬ r.row.Pending ∧ (rowLocks = true → s.tasks.holder t = some x)

/-- A task the transaction inserted, with the lock row that names it or is about to. -/
structure Fresh (s : UniqueState) (x : ℕ) (t : TaskId) : Prop where
  unborn : t ∉ s.born
  used : t ∈ s.used
  uncommitted : s.tasks.committed t = none
  draft : ∃ r, s.tasks.draft t = some r ∧ r.Aged ∧ r.row.Pending
  locked : s.locks.holder () = some x
  named : s.locks.draft () = some (some t) ∨ ∃ n held, s.calls x = .tasked n held t

/-- What a transaction that holds the lock row knows of its draft. -/
def Drafted (s : UniqueState) (x : ℕ) : Option (Option TaskId) → Prop
  | none => True
  | some none => ¬ (s.calls x).Plain
  | some (some t) => s.tasks.holder t = some x ∧ t ∉ s.born ∧
      (t ∈ s.returned ∨ ∃ n held, s.calls x = .named n held t)

/-- What a call knows between its statements. -/
def CallKnows (rowLocks : Bool) (s : UniqueState) (x : ℕ) : UniqueCall → Prop
  | .locked _ _ => s.locks.holder () = some x ∧ s.locks.draft () = some none
  | .tasked _ _ t => s.locks.holder () = some x ∧ s.locks.draft () = some none ∧
      s.tasks.holder t = some x ∧ t ∉ s.born
  | .named _ _ t => s.locks.holder () = some x ∧ s.locks.draft () = some (some t)
  | .conflicted _ => s.locks.holder () = some x → s.locks.draft () ≠ none
  | .lockRead _ gen =>
      if s.locks.holder () = some x then s.locks.draft () = some gen else ∀ t ∈ gen, t ∈ s.born
  | .settled _ t => s.locks.holder () ≠ some x ∧ t ∈ s.born
  | .stale _ gen => s.locks.holder () ≠ some x ∧
      ∀ t ∈ gen, t ∈ s.born ∧ (rowLocks = true → s.DeadTask rowLocks x t)
  | .releasing _ gen _ => rowLocks = true ∧ s.locks.holder () ≠ some x ∧
      ∀ t ∈ gen, t ∈ s.born ∧ s.DeadTask rowLocks x t
  | _ => True

/-- What a transaction can rely on. -/
structure Footing (rowLocks : Bool) (s : UniqueState) (x : ℕ) : Prop where
  rows : ∀ t, s.tasks.holder t = some x →
    (t ∈ s.born ∧ s.tasks.draft t = s.tasks.committed t) ∨ s.Fresh x t
  dead : s.locks.holder () = some x → ∀ t, s.locks.committed () = some (some t) →
    s.DeadTask rowLocks x t
  drafted : s.locks.holder () = some x → s.Drafted x (s.locks.draft ())
  call : s.CallKnows rowLocks x (s.calls x)

structure UniqueInv (rowLocks : Bool) (s : UniqueState) : Prop where
  named : ∀ t, ∀ r ∈ s.tasks.committed t, r.row.Pending → s.locks.committed () = some (some t)
  aged : ∀ t, ∀ r ∈ s.tasks.committed t, r.Aged
  born : ∀ t, s.tasks.committed t ≠ none → t ∈ s.born
  used : ∀ t ∈ s.born, t ∈ s.used
  returned : ∀ t ∈ s.born, t ∈ s.returned
  names : ∀ g, s.locks.committed () = some g → ∃ t, g = some t ∧ t ∈ s.born
  footing : ∀ x, s.Footing rowLocks x

/-- What a step of the others leaves a transaction. -/
structure Frame (rowLocks : Bool) (y : ℕ) (s s' : UniqueState) : Prop where
  call : s'.calls y = s.calls y
  lock : s'.locks.holder () = some y ↔ s.locks.holder () = some y
  lockRow : s.locks.holder () = some y → s'.locks.draft () = s.locks.draft () ∧
    s'.locks.committed () = s.locks.committed ()
  holder : ∀ t, s'.tasks.holder t = some y ↔ s.tasks.holder t = some y
  row : ∀ t, s.tasks.holder t = some y → s'.tasks.draft t = s.tasks.draft t ∧
    s'.tasks.committed t = s.tasks.committed t ∧ (t ∈ s'.born → t ∈ s.born)
  born : ∀ t ∈ s.born, t ∈ s'.born
  used : ∀ t ∈ s.used, t ∈ s'.used
  returned : ∀ t ∈ s.returned, t ∈ s'.returned
  dead : ∀ t ∈ s.born, rowLocks = true ∨ s.locks.holder () = some y →
    s.DeadTask rowLocks y t → s'.DeadTask rowLocks y t

theorem Frame.trans (h : Frame rowLocks y s s') (h' : Frame rowLocks y s' s'') :
    Frame rowLocks y s s'' where
  call := h'.call.trans h.call
  lock := h'.lock.trans h.lock
  lockRow hy := by
    obtain ⟨hd, hc⟩ := h.lockRow hy
    obtain ⟨hd', hc'⟩ := h'.lockRow (h.lock.mpr hy)
    exact ⟨hd'.trans hd, hc'.trans hc⟩
  holder t := (h'.holder t).trans (h.holder t)
  row t ht := by
    obtain ⟨hd, hc, hb⟩ := h.row t ht
    obtain ⟨hd', hc', hb'⟩ := h'.row t ((h.holder t).mpr ht)
    exact ⟨hd'.trans hd, hc'.trans hc, fun hm => hb (hb' hm)⟩
  born t ht := h'.born t (h.born t ht)
  used t ht := h'.used t (h.used t ht)
  returned t ht := h'.returned t (h.returned t ht)
  dead t ht hy hd := h'.dead t (h.born t ht) (hy.imp_right h.lock.mpr) (h.dead t ht hy hd)

/-- A step that commits nothing. -/
theorem Frame.of_committed (hcall : s'.calls y = s.calls y)
    (hlock : s'.locks.holder () = some y ↔ s.locks.holder () = some y)
    (hdraft : s.locks.holder () = some y → s'.locks.draft () = s.locks.draft ())
    (hlocks : s'.locks.committed = s.locks.committed)
    (hholder : ∀ t, s'.tasks.holder t = some y ↔ s.tasks.holder t = some y)
    (hrow : ∀ t, s.tasks.holder t = some y → s'.tasks.draft t = s.tasks.draft t)
    (htasks : s'.tasks.committed = s.tasks.committed) (hborn : s'.born = s.born)
    (hused : ∀ t ∈ s.used, t ∈ s'.used) (hreturned : ∀ t ∈ s.returned, t ∈ s'.returned) :
    Frame rowLocks y s s' where
  call := hcall
  lock := hlock
  lockRow hy := ⟨hdraft hy, by rw [hlocks]⟩
  holder := hholder
  row t ht := ⟨hrow t ht, by rw [htasks], by simp [hborn]⟩
  born := by simp [hborn]
  used := hused
  returned := hreturned
  dead t _ _ hd r hr := by
    rw [htasks] at hr
    exact ⟨(hd r hr).1, fun hl => (hholder t).mpr ((hd r hr).2 hl)⟩

theorem Fresh.frame {t : TaskId} (h : s.Fresh y t) (hf : Frame rowLocks y s s')
    (ht : s.tasks.holder t = some y) : s'.Fresh y t := by
  obtain ⟨hd, hc, hb⟩ := hf.row t ht
  refine ⟨fun hm => h.unborn (hb hm), hf.used t h.used, hc.trans h.uncommitted, ?_,
    hf.lock.mpr h.locked, ?_⟩
  · rw [hd]
    exact h.draft
  · rw [(hf.lockRow h.locked).1, hf.call]
    exact h.named

theorem Footing.frame (hi : s.UniqueInv rowLocks) (hf : Frame rowLocks y s s') :
    s'.Footing rowLocks y := by
  have h := hi.footing y
  refine ⟨fun t ht => ?_, fun hy t ht => ?_, fun hy => ?_, ?_⟩
  · have hold := (hf.holder t).mp ht
    rcases h.rows t hold with ⟨hb, hd⟩ | hfresh
    · obtain ⟨hd', hc', -⟩ := hf.row t hold
      exact .inl ⟨hf.born t hb, by rw [hd', hc', hd]⟩
    · exact .inr (hfresh.frame hf hold)
  · have hold := hf.lock.mp hy
    rw [(hf.lockRow hold).2] at ht
    obtain ⟨u, hu, hb⟩ := hi.names _ ht
    obtain rfl := Option.some.inj hu
    exact hf.dead t hb (.inr hold) (h.dead hold t ht)
  · have hold := hf.lock.mp hy
    have hd := h.drafted hold
    rw [(hf.lockRow hold).1]
    cases hl : s.locks.draft () with
    | none => trivial
    | some g =>
      rw [hl] at hd
      cases g with
      | none => simpa only [Drafted, hf.call] using hd
      | some t =>
        obtain ⟨ht, hb, hr⟩ := hd
        refine ⟨(hf.holder t).mpr ht, fun hm => hb ((hf.row t ht).2.2 hm), ?_⟩
        rw [hf.call]
        exact hr.imp_left (hf.returned t)
  · have hc := h.call
    rw [hf.call]
    cases hx : s.calls y with
    | locked n held =>
      rw [hx] at hc
      exact ⟨hf.lock.mpr hc.1, (hf.lockRow hc.1).1.trans hc.2⟩
    | tasked n held t =>
      rw [hx] at hc
      obtain ⟨hy, hd, ht, hb⟩ := hc
      exact ⟨hf.lock.mpr hy, (hf.lockRow hy).1.trans hd, (hf.holder t).mpr ht,
        fun hm => hb ((hf.row t ht).2.2 hm)⟩
    | named n held t =>
      rw [hx] at hc
      exact ⟨hf.lock.mpr hc.1, (hf.lockRow hc.1).1.trans hc.2⟩
    | conflicted n =>
      rw [hx] at hc
      intro hy
      have hold := hf.lock.mp hy
      rw [(hf.lockRow hold).1]
      exact hc hold
    | lockRead n gen =>
      rw [hx] at hc
      simp only [CallKnows, hf.lock] at hc ⊢
      split_ifs at hc ⊢ with hold
      · exact (hf.lockRow hold).1.trans hc
      · exact fun t ht => hf.born t (hc t ht)
    | settled n t =>
      rw [hx] at hc
      exact ⟨fun hy => hc.1 (hf.lock.mp hy), hf.born t hc.2⟩
    | stale n gen =>
      rw [hx] at hc
      refine ⟨fun hy => hc.1 (hf.lock.mp hy), fun t ht => ?_⟩
      obtain ⟨hb, hd⟩ := hc.2 t ht
      exact ⟨hf.born t hb, fun hl => hf.dead t hb (.inl hl) (hd hl)⟩
    | releasing n gen hit =>
      rw [hx] at hc
      obtain ⟨hl, hown, hc⟩ := hc
      refine ⟨hl, fun hy => hown (hf.lock.mp hy), fun t ht => ?_⟩
      obtain ⟨hb, hd⟩ := hc t ht
      exact ⟨hf.born t hb, hf.dead t hb (.inl hl) hd⟩
    | _ => trivial

end UniqueState

end DjangoOx
