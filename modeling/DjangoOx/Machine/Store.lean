import Mathlib.Logic.Function.Basic

/-! A table of rows under READ COMMITTED: committed rows, the draft of the transaction that holds a
row's lock, and what a transaction sees. -/
namespace Machine

/-- `draft` is read only for a row whose lock is held. -/
structure Store (κ ρ τ : Type*) where
  committed : κ → Option ρ
  draft : κ → Option ρ
  holder : κ → Option τ

namespace Store

variable {κ ρ τ : Type*}

/-- No locks, and these rows. -/
def idle (rows : κ → Option ρ) : Store κ ρ τ where
  committed := rows
  draft := rows
  holder _ := none

/-- What a statement of the transaction sees: its own drafts, and else what is committed. -/
def view [DecidableEq τ] (s : Store κ ρ τ) (x : τ) (k : κ) : Option ρ :=
  if s.holder k = some x then s.draft k else s.committed k

/-- The transaction need not wait for the row. -/
def Free (s : Store κ ρ τ) (x : τ) (k : κ) : Prop :=
  s.holder k = none ∨ s.holder k = some x

instance [DecidableEq τ] (s : Store κ ρ τ) (x : τ) (k : κ) : Decidable (s.Free x k) :=
  inferInstanceAs (Decidable (_ ∨ _))

/-- The row written, inserted (`some`) or deleted (`none`) by the transaction. -/
def write [DecidableEq κ] (s : Store κ ρ τ) (x : τ) (k : κ) (v : Option ρ) : Store κ ρ τ :=
  { s with
    draft := Function.update s.draft k v
    holder := Function.update s.holder k (some x) }

/-- `SELECT .. FOR UPDATE`. -/
def lock [DecidableEq κ] [DecidableEq τ] (s : Store κ ρ τ) (x : τ) (k : κ) : Store κ ρ τ :=
  s.write x k (s.view x k)

/-- The row as it was before the transaction wrote it. -/
def unlock [DecidableEq κ] (s : Store κ ρ τ) (k : κ) : Store κ ρ τ :=
  { s with holder := Function.update s.holder k none }

def commit [DecidableEq τ] (s : Store κ ρ τ) (x : τ) : Store κ ρ τ :=
  { s with
    committed := s.view x
    holder := fun k => if s.holder k = some x then none else s.holder k }

def rollback [DecidableEq τ] (s : Store κ ρ τ) (x : τ) : Store κ ρ τ :=
  { s with holder := fun k => if s.holder k = some x then none else s.holder k }

/-- A transaction of one statement on one row. -/
def put [DecidableEq κ] (s : Store κ ρ τ) (k : κ) (v : Option ρ) : Store κ ρ τ :=
  { s with committed := Function.update s.committed k v }

section lemmas

variable (s : Store κ ρ τ) (x y : τ) (j k : κ) (v : Option ρ)

section rows

variable [DecidableEq κ]

@[simp] theorem committed_write : (s.write x k v).committed = s.committed :=
  rfl

@[simp] theorem holder_write :
    (s.write x k v).holder j = if j = k then some x else s.holder j := by
  simp [write, Function.update_apply]

@[simp] theorem draft_write :
    (s.write x k v).draft j = if j = k then v else s.draft j := by
  simp [write, Function.update_apply]

@[simp] theorem committed_unlock : (s.unlock k).committed = s.committed :=
  rfl

@[simp] theorem draft_unlock : (s.unlock k).draft = s.draft :=
  rfl

@[simp] theorem holder_unlock :
    (s.unlock k).holder j = if j = k then none else s.holder j := by
  simp [unlock, Function.update_apply]

@[simp] theorem committed_put :
    (s.put k v).committed j = if j = k then v else s.committed j := by
  simp [put, Function.update_apply]

@[simp] theorem draft_put : (s.put k v).draft = s.draft :=
  rfl

@[simp] theorem holder_put : (s.put k v).holder = s.holder :=
  rfl

end rows

variable [DecidableEq τ]

theorem view_of_held {s : Store κ ρ τ} {x : τ} {k : κ} (h : s.holder k = some x) :
    s.view x k = s.draft k :=
  if_pos h

theorem view_of_not_held {s : Store κ ρ τ} {x : τ} {k : κ} (h : s.holder k ≠ some x) :
    s.view x k = s.committed k :=
  if_neg h

@[simp] theorem committed_commit : (s.commit x).committed j = s.view x j :=
  rfl

@[simp] theorem draft_commit : (s.commit x).draft = s.draft :=
  rfl

@[simp] theorem holder_commit :
    (s.commit x).holder j = if s.holder j = some x then none else s.holder j :=
  rfl

@[simp] theorem committed_rollback : (s.rollback x).committed = s.committed :=
  rfl

@[simp] theorem draft_rollback : (s.rollback x).draft = s.draft :=
  rfl

@[simp] theorem holder_rollback :
    (s.rollback x).holder j = if s.holder j = some x then none else s.holder j :=
  rfl

variable [DecidableEq κ]

theorem view_write : (s.write x k v).view x j = if j = k then v else s.view x j := by
  by_cases h : j = k <;> simp [view, h]

@[simp] theorem committed_lock : (s.lock x k).committed = s.committed :=
  rfl

@[simp] theorem holder_lock :
    (s.lock x k).holder j = if j = k then some x else s.holder j := by
  simp [lock]

@[simp] theorem view_lock : (s.lock x k).view x j = s.view x j := by
  unfold lock
  rw [view_write]
  by_cases h : j = k <;> simp [h]

end lemmas

end Store

end Machine
